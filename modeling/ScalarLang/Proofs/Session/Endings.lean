import ScalarLang.Proofs.Interpreter.Faults
import ScalarLang.Proofs.Interpreter.Meaning
import ScalarLang.Proofs.Session.Loops
import ScalarLang.Proofs.Session.Segments
import ScalarLang.Proofs.Session.Tally

/-!
# How a session ends

Everything that is read is counted once: a form as a definition, a declaration, a value or an error,
and what cannot be read as an error. The one exception is a form that ends the session with a fault.
With the interpreter and its builtin functions a single fault is left, a logarithm to a base whose
logarithm is zero; all other failures are reported, and the session goes on to the end of the input.
-/
namespace ScalarLang

variable {σ η : Type}

/-! ### Everything that is read is counted -/

/-- The forms that have been read and are not counted: the one that ended the session, if any. -/
def Turn.uncounted (turn : Turn σ η) : Nat := if turn.fault.isSome then 1 else 0

theorem Turn.uncounted_of_none {turn : Turn σ η} (h : turn.fault = none) : turn.uncounted = 0 := by
  rw [uncounted, h]
  rfl

theorem Stats.total_accept (s : Stats) {kind : FormKind} (h : kind ≠ .expression) :
    (s.accept kind).total = s.total + 1 := by
  cases kind with
  | expression => exact absurd rfl h
  | _ =>
    simp only [total, accept]
    omega

namespace Session

variable {engine : Engine σ η} {ops : OperatorTable} {depth : Nat} {skip : Bool} {s : Session σ}
  {kind : FormKind}

theorem advanceOver_counts (s : Session σ) (items : List Lexeme) :
    (s.advanceOver items : List (Event η) × Session σ).2.stats.total =
      s.stats.total +
        (Event.readings (s.advanceOver items : List (Event η) × Session σ).1).length := by
  induction items generalizing s with
  | nil => rfl
  | cons l rest ih =>
    obtain ⟨notes, item⟩ := l
    cases item with
    | token t =>
      simp only [advanceOver, Event.readings_itemEvents]
      rfl
    | malformed fault =>
      have hrest := ih { s with stats := s.stats.report (.reading (.malformed fault)) }
      rw [Stats.total_report] at hrest
      simp only [advanceOver, Event.readings_append, Event.readings_itemEvents, List.nil_append,
        Event.readings_error_reading, List.length_cons]
      omega

theorem advance_counts (s : Session σ) :
    (s.advance : List (Event η) × Session σ).2.stats.total =
      s.stats.total + (Event.readings (s.advance : List (Event η) × Session σ).1).length :=
  advanceOver_counts s s.reader.ahead

/-- The report itself is one more, whether or not it tells of reading. -/
theorem recover_counts (s : Session σ) (skip : Bool) (report : Report) :
    (s.recover skip report : List (Event η) × Session σ).2.stats.total +
        (Event.readings [(Event.error report : Event η)]).length =
      s.stats.total + 1 +
        (Event.readings (s.recover skip report : List (Event η) × Session σ).1).length := by
  unfold recover
  cases skip with
  | false => rfl
  | true =>
    have hmoved := advance_counts (η := η) { s with stats := s.stats.report report }
    rw [Stats.total_report] at hmoved
    have hevents : ∀ (record : Record) (events : List (Event η)),
        (Event.readings (.error report :: .log record :: events)).length =
          (Event.readings [(Event.error report : Event η)]).length +
            (Event.readings events).length := by
      intro record events
      cases report with
      | reading failure =>
        simp only [Event.readings_error_reading, List.length_cons]
        exact Nat.add_comm _ _
      | engine d => exact (Nat.zero_add _).symm
    simp only [if_true, hevents]
    omega

/-- An accepted form that is no expression counts, and an expression is never merely accepted. -/
theorem accept_counts (engine : Engine σ η) (skip : Bool) (s : Session σ) (kind : FormKind)
    (form : Form) :
    let turn := accept engine skip s kind form
    turn.session.stats.total + turn.uncounted =
      s.stats.total + 1 + (Event.readings turn.events).length := by
  intro turn
  have hrejected : ∀ (middle : Session σ) (d : Diagnostic), middle.stats = s.stats →
      (conclude skip kind middle (.rejected d) : Turn σ η).session.stats.total +
          (conclude skip kind middle (.rejected d) : Turn σ η).uncounted =
        s.stats.total + 1 +
          (Event.readings (conclude skip kind middle (.rejected d) : Turn σ η).events).length := by
    intro middle d hstats
    have hrecover := recover_counts (η := η) middle skip (.engine d)
    rw [hstats] at hrecover
    exact hrecover
  simp only [turn, accept_eq, Turn.uncounted, Event.readings_append, Engine.readings_announcement,
    List.nil_append]
  change (conclude skip kind _ _ : Turn σ η).session.stats.total +
    (conclude skip kind _ _ : Turn σ η).uncounted = _
  unfold Engine.verdict
  cases submit engine form s.store with
  | error rejection after => exact hrejected { s with store := after } _ rfl
  | ok lowered after =>
    have hcounted : ∀ stats : Stats, stats.total = s.stats.total + 1 →
        stats.total + 0 = s.stats.total + 1 + 0 := fun stats h => h
    cases kind with
    | definition => exact hcounted _ (Stats.total_accept s.stats (by decide))
    | external => exact hcounted _ (Stats.total_accept s.stats (by decide))
    | expression =>
      dsimp only
      unfold Engine.outcome
      cases engine.execute lowered.handle after with
      | ok x last => exact hcounted (s.stats.evaluate x) (Stats.total_evaluate s.stats x)
      | error trap last =>
        dsimp only
        cases trap.diagnostic? with
        | some d => exact hrejected { s with store := last } d rfl
        | none => rfl

theorem handle_counts (engine : Engine σ η) (ops : OperatorTable) (depth : Nat) (skip : Bool)
    (s : Session σ) (kind : FormKind) :
    let turn := handle engine ops depth skip s kind
    turn.session.stats.total + turn.uncounted =
      s.stats.total + (Event.readings turn.events).length := by
  intro turn
  cases hread : kind.read ops depth s.reader with
  | error failure after =>
    have hrecover := recover_counts (η := η) { s with reader := after } true (.reading failure)
    simp only [turn, handle_of_error hread, Turn.uncounted, Event.readings_append,
      Event.readings_consumed, List.nil_append]
    exact Nat.add_right_cancel (hrecover.trans (Nat.add_right_comm _ _ _))
  | ok form after =>
    have haccept := accept_counts engine skip { s with reader := after } kind form
    simp only [turn, handle_of_ok hread, Event.readings_append, Event.readings_consumed,
      List.nil_append, Event.readings_form, List.length_cons]
    simp only [Turn.uncounted] at haccept ⊢
    omega

theorem step_counts (engine : Engine σ η) (ops : OperatorTable) (depth : Nat) (skip : Bool)
    (s : Session σ) :
    let turn := step engine ops depth skip s
    turn.session.stats.total + turn.uncounted =
      s.stats.total + (Event.readings turn.events).length := by
  rcases step_cases engine ops depth skip s with hstep | ⟨kind, hstep⟩
  · rw [hstep]
    exact advance_counts s
  · rw [hstep]
    exact handle_counts engine ops depth skip s kind

theorem runFrom_counts (engine : Engine σ η) (ops : OperatorTable) (depth : Nat) (skip : Bool)
    (fuel : Nat) (s : Session σ) :
    let turn := runFrom engine ops depth skip fuel s
    turn.session.stats.total + turn.uncounted =
      s.stats.total + (Event.readings turn.events).length := by
  induction fuel generalizing s with
  | zero => rfl
  | succ fuel ih =>
    have hstep := step_counts engine ops depth skip s
    cases hend : s.reader.token.isEnd with
    | true =>
      rw [runFrom_of_end hend]
      rfl
    | false =>
      cases hf : (step engine ops depth skip s).fault with
      | some trap =>
        rw [runFrom_of_fault hend hf]
        exact hstep
      | none =>
        have hrest := ih (step engine ops depth skip s).session
        dsimp only at hstep hrest
        rw [Turn.uncounted_of_none hf] at hstep
        rw [runFrom_of_step hend hf]
        simp only [Turn.uncounted, Event.readings_append, Event.readings_prompt,
          List.length_append] at hrest ⊢
        omega

theorem run_counts (engine : Engine σ η) (ops : OperatorTable) (depth : Nat) (skip : Bool)
    (store : σ) (items : List Lexeme) :
    let turn := run engine ops depth skip store items
    turn.session.stats.total + turn.uncounted = (Event.readings turn.events).length := by
  intro turn
  let start : Session σ := { reader := .ofLexemes items, store }
  have hstart : (start.advance : List (Event η) × Session σ).2.stats.total =
      0 + (Event.readings (start.advance : List (Event η) × Session σ).1).length :=
    advance_counts start
  have hrun := runFrom_counts engine ops.freeze depth skip (items.length + 1)
    (start.advance : List (Event η) × Session σ).2
  simp only [Turn.uncounted, start] at hstart hrun
  simp only [turn, run_eq, Turn.uncounted, List.cons_append, Event.readings_prompt,
    Event.readings_append, List.length_append]
  omega

end Session

/-! ### What ends a session with the interpreter -/

/-- The request that a form is handed over with. -/
def Form.request : Form → Request η
  | .function f => .define f
  | .external p => .declare p

theorem Engine.perform_form (engine : Engine σ η) (s : σ) (form : Form) :
    engine.perform s form.request =
      match Session.submit engine form s with
      | .ok lowered after => (.lowered lowered, after)
      | .error rejection after => (.rejected rejection, after) := by
  cases form <;> rfl

/-- A form of a kind as it is read: a bare expression has no parameters. -/
def FormKind.Fits (form : Form) : FormKind → Prop
  | .expression => ∃ f, form = .function f ∧ f.prototype.arity = 0
  | _ => True

theorem FormKind.fits_of_read {ops : OperatorTable} {depth : Nat} {kind : FormKind}
    {r after : Reader} {form : Form} (h : kind.read ops depth r = .ok form after) :
    kind.Fits form := by
  cases kind with
  | expression =>
    obtain ⟨f, hf, rfl⟩ := step_map_eq_ok h
    refine ⟨f, rfl, ?_⟩
    obtain ⟨t, middle, _, hf⟩ := step_bind_eq_ok.1 hf
    obtain ⟨body, last, _, hf⟩ := step_bind_eq_ok.1 hf
    cases hf
    rfl
  | _ => trivial

/-- A store between two forms of a session. -/
structure Store.Settled (s : Store Code) : Prop where
  sound : s.Sound
  closed : s.Closed

namespace Interpreter

variable {natives : Ledger String Native} {limit : Nat} {s after : Store Code} {form : Form}

theorem submit_ok (hs : s.Settled) {lowered : Lowered (Handle Code)}
    (h : Session.submit (engine natives limit) form s = .ok lowered after) :
    after.Settled ∧ lowered.handle.Sound after := by
  have hperform := (engine natives limit).perform_form s form
  rw [h] at hperform
  obtain ⟨hsound, _, hhandle⟩ := perform_sound natives limit hs.sound hs.closed form.request
  have hclosed := (onStore natives limit).atomic.keeps s form.request hs.closed
  rw [hperform] at hsound hhandle hclosed
  exact ⟨⟨hsound, hclosed⟩, hhandle lowered rfl⟩

theorem submit_error (hs : s.Settled) {rejection : Rejection}
    (h : Session.submit (engine natives limit) form s = .error rejection after) :
    after = s := by
  have hperform := (engine natives limit).perform_form s form
  rw [h] at hperform
  have hrestores := (onStore natives limit).atomic.restores s form.request hs.closed
  rw [hperform] at hrestores
  exact hrestores rfl

theorem outcome_store (handle : Handle Code) (s : Store Code) :
    ((engine natives limit).outcome handle s).2 = s := by
  unfold Engine.outcome
  have hexecute : (engine natives limit).execute handle s =
      (ofExcept (execute natives limit s handle) : EStateM Trap (Store Code) Float) s := rfl
  rw [hexecute]
  rcases ofExcept_cases (execute natives limit s handle) s with ⟨x, _, hx⟩ | ⟨trap, _, hx⟩
  · rw [hx]
  · rw [hx]
    dsimp only
    cases trap.diagnostic? with
    | none => rfl
    | some d => rfl

theorem verdict_settled (hs : s.Settled) (kind : FormKind) (form : Form) :
    ((engine natives limit).verdict kind form s).2.Settled := by
  unfold Engine.verdict
  cases h : Session.submit (engine natives limit) form s with
  | error rejection after =>
    obtain rfl := submit_error hs h
    exact hs
  | ok lowered after =>
    obtain ⟨hafter, _⟩ := submit_ok hs h
    cases kind with
    | expression =>
      dsimp only
      rw [outcome_store]
      exact hafter
    | _ => exact hafter

/-- Sound code that is run without arguments ends in a fault only if a native function raises it. -/
theorem outcome_fault (hs : s.Settled) {d : Definition Code} (hd : Handle.Sound s (.defined d))
    (harity : d.function.prototype.arity = 0) {trap : Trap}
    (h : ((engine natives limit).outcome (.defined d) s).1 = .fault trap) :
    ∃ what, trap = .raised what ∧
      d.body.run natives s.definitions limit [] = .error (.raised what) := by
  have hzero : Handle.arity (.defined d) = 0 := by
    change (d.function.prototype.arity : Int) = 0
    omega
  have hbound : d.body.Bound s.signatures ([] : List Float).length := by
    have hown : d.body.Bound s.signatures d.function.prototype.arity := hd
    rw [harity] at hown
    exact hown
  have hrun := execute_eq_run natives limit s hzero
  unfold Engine.outcome at h
  cases hexecute : execute natives limit s (.defined d) with
  | ok x =>
    rw [engine_execute_of_ok hexecute] at h
    cases h
  | error own =>
    rw [engine_execute_of_error hexecute] at h
    rw [hexecute] at hrun
    dsimp only at h
    cases Code.run_permitted hs.sound hbound hrun.symm with
    | raised _ _ _ =>
      cases h
      exact ⟨_, rfl, hrun.symm⟩
    | unresolved _ _ => cases h
    | refused _ _ _ => cases h
    | depth => cases h

/-- A fault comes from running an expression, whose echo is the last that was announced. -/
theorem verdict_fault (hs : s.Settled) {kind : FormKind} (hfits : kind.Fits form) {trap : Trap}
    (h : ((engine natives limit).verdict kind form s).1 = .fault trap) :
    ∃ what before d, trap = .raised what ∧
      (engine natives limit).announcement kind form s =
        before ++ [.echo .expression (.defined d)] ∧
      d.body.run natives ((engine natives limit).verdict kind form s).2.definitions limit [] =
        .error (.raised what) := by
  unfold Engine.verdict at h ⊢
  unfold Engine.announcement
  cases hsubmit : Session.submit (engine natives limit) form s with
  | error rejection after =>
    rw [hsubmit] at h
    cases h
  | ok lowered after =>
    rw [hsubmit] at h
    cases kind with
    | expression =>
      obtain ⟨f, rfl, harity⟩ := hfits
      obtain ⟨hafter, hsound⟩ := submit_ok hs hsubmit
      obtain ⟨⟨d, log⟩, hdefine, rfl⟩ := step_map_eq_ok hsubmit
      obtain ⟨_, body, _, hd, _⟩ := Store.define_ok hs.closed hdefine
      have hown : d.function.prototype.arity = 0 := by rw [show d = ⟨f, body⟩ from hd, harity]
      obtain ⟨what, rfl, hrun⟩ := outcome_fault hafter hsound hown h
      dsimp only
      rw [outcome_store]
      exact ⟨what, (engine natives limit).logged log, d, rfl, List.append_nil _, hrun⟩
    | _ => cases h

/-- The last that happened is that an expression was handed over, and running it raised a fault. -/
def RaisedLast (natives : Ledger String Native) (limit : Nat)
    (turn : Turn (Store Code) (Handle Code)) (what : String) : Prop :=
  ∃ before d, turn.events = before ++ [.echo .expression (.defined d)] ∧
    d.body.run natives turn.session.store.definitions limit [] = .error (.raised what)

end Interpreter

namespace Session

open Interpreter

variable {natives : Ledger String Native} {limit : Nat} {ops : OperatorTable} {depth : Nat}
  {skip : Bool} {s : Session (Store Code)} {kind : FormKind} {form : Form}

theorem conclude_fault {σ η : Type} {s : Session σ} {verdict : Verdict} {trap : Trap}
    (h : (conclude skip kind s verdict : Turn σ η).fault = some trap) : verdict = .fault trap := by
  cases verdict with
  | fault own =>
    cases h
    rfl
  | _ => cases h

variable (natives limit ops depth skip)

theorem accept_settled (hs : s.store.Settled) (hfits : kind.Fits form) :
    let turn := accept (engine natives limit) skip s kind form
    turn.session.store.Settled ∧ ∀ trap, turn.fault = some trap →
      ∃ what, trap = .raised what ∧ RaisedLast natives limit turn what := by
  intro turn
  have hturn := accept_eq (engine natives limit) skip s kind form
  dsimp only at hturn
  constructor
  · simp only [turn, hturn]
    rw [(conclude_keeps _ skip kind _).1]
    exact verdict_settled hs kind form
  · intro trap hfault
    simp only [turn, hturn] at hfault
    have hverdict := conclude_fault hfault
    obtain ⟨what, before, d, rfl, hevents, hrun⟩ := verdict_fault hs hfits hverdict
    refine ⟨what, rfl, before, d, ?_, ?_⟩
    · simp only [turn, hturn, hverdict, hevents]
      exact List.append_nil _
    · simp only [turn, hturn, hverdict]
      exact hrun

theorem handle_settled (hs : s.store.Settled) (kind : FormKind) :
    let turn := handle (engine natives limit) ops depth skip s kind
    turn.session.store.Settled ∧ ∀ trap, turn.fault = some trap →
      ∃ what, trap = .raised what ∧ RaisedLast natives limit turn what := by
  intro turn
  cases hread : kind.read ops depth s.reader with
  | error failure after =>
    have hstore := (recover_keeps (η := Handle Code) { s with reader := after } true
      (.reading failure)).1
    simp only [turn, handle_of_error hread]
    refine ⟨?_, fun trap h => by cases h⟩
    rw [hstore]
    exact hs
  | ok form after =>
    obtain ⟨hsettled, hfault⟩ := accept_settled natives limit skip
      (s := { s with reader := after }) hs (FormKind.fits_of_read hread)
    simp only [turn, handle_of_ok hread]
    refine ⟨hsettled, fun trap htrap => ?_⟩
    obtain ⟨what, rfl, before, d, hevents, hrun⟩ := hfault trap htrap
    refine ⟨what, rfl, (s.reader.consumed after).flatMap itemEvents ++ .form form :: before, d,
      ?_, hrun⟩
    rw [hevents, List.append_assoc, List.cons_append]

theorem step_settled (hs : s.store.Settled) :
    let turn := step (engine natives limit) ops depth skip s
    turn.session.store.Settled ∧ ∀ trap, turn.fault = some trap →
      ∃ what, trap = .raised what ∧ RaisedLast natives limit turn what := by
  rcases step_cases (engine natives limit) ops depth skip s with hstep | ⟨kind, hstep⟩
  · rw [hstep]
    refine ⟨?_, fun trap h => by cases h⟩
    rw [advance_store]
    exact hs
  · rw [hstep]
    exact handle_settled natives limit ops depth skip hs kind

variable {natives limit}

/-- How a session with the interpreter ends. -/
inductive Ends (natives : Ledger String Native) (limit : Nat)
    (turn : Turn (Store Code) (Handle Code)) : Prop
  | atEnd (hfault : turn.fault = none) (hend : turn.session.reader.token.isEnd = true)
      (hunread : turn.session.reader.unread = [])
      (hevents : ∃ before, turn.events = before ++ [.farewell])
  | cut {what : String} (hfault : turn.fault = some (.raised what))
      (hraised : RaisedLast natives limit turn what)

theorem Ends.prepend {turn : Turn (Store Code) (Handle Code)} (h : Ends natives limit turn)
    (events : List (Event (Handle Code))) :
    Ends natives limit { turn with events := events ++ turn.events } := by
  cases h with
  | atEnd hfault hend hunread hevents =>
    obtain ⟨before, hevents⟩ := hevents
    exact .atEnd hfault hend hunread ⟨events ++ before, by rw [hevents, List.append_assoc]⟩
  | cut hfault hraised =>
    obtain ⟨before, d, hevents, hrun⟩ := hraised
    exact .cut hfault ⟨events ++ before, d, by rw [hevents, List.append_assoc], hrun⟩

theorem runFrom_ends {fuel : Nat} (hr : s.reader.Standing) (hs : s.store.Settled)
    (hfuel : s.reader.unread.length < fuel) :
    Ends natives limit (runFrom (engine natives limit) ops depth skip fuel s) := by
  induction fuel generalizing s with
  | zero => exact absurd hfuel (Nat.not_lt_zero _)
  | succ fuel ih =>
    cases hend : s.reader.token.isEnd with
    | true =>
      obtain ⟨t, hc⟩ := hr.current
      have ht : t.isEnd = true := by rwa [← token_of_some hc]
      rw [runFrom_of_end hend]
      exact .atEnd rfl hend (hr.inside.unread_of_end hc ht) ⟨[], rfl⟩
    | false =>
      obtain ⟨hsettled, hcut⟩ := step_settled natives limit ops depth skip hs
      cases hf : (step (engine natives limit) ops depth skip s).fault with
      | some trap =>
        obtain ⟨what, rfl, hraised⟩ := hcut trap hf
        rw [runFrom_of_fault hend hf]
        exact .cut hf hraised
      | none =>
        obtain ⟨hstanding, hless⟩ := step_less (engine natives limit) ops depth skip hr hend
        have hrest := ih hstanding hsettled (by omega)
        rw [runFrom_of_step hend hf]
        have hmore := hrest.prepend
          ((step (engine natives limit) ops depth skip s).events ++ [.prompt])
        simpa using hmore

theorem run_ends (natives : Ledger String Native) (limit : Nat) (ops : OperatorTable)
    (depth : Nat) (skip : Bool) (file : String) (source : List Char) :
    Ends natives limit (run (engine natives limit) ops depth skip {} (lexemes file source)) := by
  let start : Session (Store Code) := { reader := .ofSource file source, store := {} }
  obtain ⟨hstanding, hfuel⟩ := start_standing (Handle Code) ({} : Store Code) file source
  have hsettled : (start.advance : List (Event (Handle Code)) × _).2.store.Settled := by
    rw [advance_store]
    exact ⟨Store.sound_empty, Store.closed_empty⟩
  exact (runFrom_ends ops.freeze depth skip hstanding hsettled hfuel).prepend _

end Session

open Interpreter in
/-- A session with the interpreter and the builtin functions, over any source, with any operators
and settings. It goes on to the end of the input, and everything that is read is counted once,
unless an expression takes a logarithm to a base whose logarithm is zero: then the session ends with
a fault right after that expression was echoed, and the expression is neither counted as an error
nor turned into a value. -/
theorem only_zero_division_cuts_a_session (ops : OperatorTable) (depth limit : Nat) (skip : Bool)
    (file : String) (source : List Char) :
    let turn := Session.run (engine Native.standard limit) ops depth skip {} (lexemes file source)
    (turn.fault = none →
      turn.session.reader.token.isEnd = true ∧ turn.session.reader.unread = []) ∧
    turn.session.stats = (Event.entries describe turn.events).foldl Stats.enter {} ∧
    turn.session.stats.total + turn.uncounted = (Event.readings turn.events).length ∧
    ∀ trap, turn.fault = some trap ↔ trap = .raised "float division by zero" ∧
      ∃ before d x base, turn.events = before ++ [.echo .expression (.defined d)] ∧
        Native.ZeroDivision x base ∧
        d.body.Invokes Native.standard turn.session.store.definitions limit [] "log" [x, base] := by
  intro turn
  have hends : Session.Ends Native.standard limit turn :=
    Session.run_ends Native.standard limit ops depth skip file source
  have htally := Session.run_tally (engine Native.standard limit) describe ops depth skip {}
    (lexemes file source)
  have hcounts := Session.run_counts (engine Native.standard limit) ops depth skip {}
    (lexemes file source)
  refine ⟨fun hfault => ?_, htally, hcounts, fun trap => ⟨fun hfault => ?_, ?_⟩⟩
  · cases hends with
    | atEnd _ hend hunread _ => exact ⟨hend, hunread⟩
    | cut hcut _ =>
      rw [hcut] at hfault
      cases hfault
  · cases hends with
    | atEnd hnone _ _ _ =>
      rw [hnone] at hfault
      cases hfault
    | cut hcut hraised =>
      rw [hcut] at hfault
      cases hfault
      obtain ⟨before, d, hevents, hrun⟩ := hraised
      obtain ⟨rfl, x, base, hzero, hinvokes⟩ := Code.run_raised_iff.1 hrun
      exact ⟨rfl, before, d, x, base, hevents, hzero, hinvokes⟩
  · rintro ⟨rfl, before, d, _, _, hevents, _, _⟩
    cases hends with
    | atEnd _ _ _ hfarewell =>
      obtain ⟨other, hother⟩ := hfarewell
      have hlast := congrArg List.getLast? (hevents.symm.trans hother)
      simp at hlast
    | cut hcut hraised =>
      obtain ⟨_, own, _, hrun⟩ := hraised
      obtain ⟨rfl, _⟩ := Code.run_raised_iff.1 hrun
      exact hcut

/-- The number after the logarithm is never read. -/
theorem logarithm_to_base_one_cuts_a_session :
    let turn := Session.run (Interpreter.engine Native.standard Interpreter.depthLimit) .standard
      Parse.depthLimit true {} (lexemes "<stdin>" "extern log(x b); log(2, 1); 3".toList)
    turn.fault = some (.raised "float division by zero") ∧
      turn.session.reader.token.isEnd = false ∧
      turn.session.stats.errors = 0 ∧ turn.session.stats.evaluations = 0 := by
  decide +kernel

end ScalarLang
