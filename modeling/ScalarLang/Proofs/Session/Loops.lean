import ScalarLang.Interpreter.Engine
import ScalarLang.Proofs.Session.Steps

/-!
# A session reads what the other loops read

Three loops read the forms of a source: one collects all of them, one looks for the first, and a
session hands each to an engine and goes on after failures. Where no token is skipped after a form
that the engine rejects, they agree: a session goes along the row of forms up to its end or its
failure, whatever the engine says.
-/
namespace ScalarLang

variable {σ η : Type}

/-! ### What an engine is given -/

/-- The view of a store records each form that the engine is given, whether or not it is accepted.
Executions leave the record alone. -/
structure Engine.Records (engine : Engine σ η) (given : σ → List Form) : Prop where
  accepted : ∀ {form s lowered after}, Session.submit engine form s = .ok lowered after →
    given after = given s ++ [form]
  rejected : ∀ {form s rejection after}, Session.submit engine form s = .error rejection after →
    given after = given s ++ [form]
  executed : ∀ {handle s x after}, engine.execute handle s = .ok x after → given after = given s
  trapped : ∀ {handle s trap after}, engine.execute handle s = .error trap after →
    given after = given s

namespace Engine.Records

variable {engine : Engine σ η} {given : σ → List Form}

theorem outcome (h : engine.Records given) (handle : η) (store : σ) :
    given (engine.outcome handle store).2 = given store := by
  unfold Engine.outcome
  cases hx : engine.execute handle store with
  | ok x after => exact h.executed hx
  | error trap after =>
    dsimp only
    cases trap.diagnostic? with
    | none => exact h.trapped hx
    | some d => exact h.trapped hx

theorem verdict (h : engine.Records given) (kind : FormKind) (form : Form) (store : σ) :
    given (engine.verdict kind form store).2 = given store ++ [form] := by
  unfold Engine.verdict
  cases hs : Session.submit engine form store with
  | error rejection after => exact h.rejected hs
  | ok lowered after =>
    have hafter := h.accepted hs
    cases kind with
    | expression => exact (h.outcome lowered.handle after).trans hafter
    | _ => exact hafter

end Engine.Records

namespace Event

@[simp] theorem forms_append (events more : List (Event η)) :
    forms (events ++ more) = forms events ++ forms more := List.filterMap_append ..

theorem forms_of_readings {events : List (Event η)} (h : readings events = []) :
    forms events = [] := by
  rw [forms_eq_forms_readings, h]
  rfl

end Event

namespace Session

variable {engine : Engine σ η} {ops : OperatorTable} {depth : Nat} {skip : Bool} {s : Session σ}
  {t : Token} {kind : FormKind} {given : σ → List Form}

theorem advanceOver_keeps (s : Session σ) (items : List Lexeme) :
    (s.advanceOver items : List (Event η) × Session σ).2.store = s.store ∧
      Event.forms (s.advanceOver items : List (Event η) × Session σ).1 = [] := by
  induction items generalizing s with
  | nil => exact ⟨rfl, rfl⟩
  | cons l rest ih =>
    obtain ⟨notes, item⟩ := l
    have hl : Event.forms (itemEvents ⟨notes, item⟩ : List (Event η)) = [] :=
      Event.forms_of_readings (Event.readings_itemEvents _)
    cases item with
    | token t => exact ⟨rfl, hl⟩
    | malformed fault =>
      obtain ⟨hstore, hforms⟩ := ih { s with stats := s.stats.report (.reading (.malformed fault)) }
      simp only [advanceOver, Event.forms_append, hl]
      exact ⟨hstore, hforms⟩

theorem advance_store (s : Session σ) :
    (s.advance : List (Event η) × Session σ).2.store = s.store := (advanceOver_keeps s _).1

theorem recover_keeps (s : Session σ) (skip : Bool) (report : Report) :
    (s.recover skip report : List (Event η) × Session σ).2.store = s.store ∧
      Event.forms (s.recover skip report : List (Event η) × Session σ).1 = [] := by
  unfold recover
  cases skip with
  | false => exact ⟨rfl, rfl⟩
  | true => exact advanceOver_keeps _ _

theorem conclude_keeps (s : Session σ) (skip : Bool) (kind : FormKind) (verdict : Verdict) :
    (conclude skip kind s verdict : Turn σ η).session.store = s.store ∧
      Event.forms (conclude skip kind s verdict : Turn σ η).events = [] := by
  cases verdict with
  | rejected d => exact recover_keeps s skip (.engine d)
  | _ => exact ⟨rfl, rfl⟩

theorem handle_records (h : engine.Records given) (s : Session σ) (kind : FormKind) :
    given (handle engine ops depth skip s kind).session.store =
      given s.store ++ Event.forms (handle engine ops depth skip s kind).events := by
  have hconsumed : ∀ after, Event.forms
      ((s.reader.consumed after).flatMap itemEvents : List (Event η)) = [] :=
    fun after => Event.forms_of_readings (Event.readings_consumed _)
  cases hread : kind.read ops depth s.reader with
  | error failure after =>
    obtain ⟨hstore, hforms⟩ :=
      recover_keeps (η := η) { s with reader := after } true (.reading failure)
    rw [handle_of_error hread]
    simp only [Event.forms_append, hconsumed, hforms, hstore, List.append_nil]
  | ok form after =>
    have hannounced : Event.forms (engine.announcement kind form s.store) = [] :=
      Event.forms_of_readings (engine.readings_announcement kind form s.store)
    obtain ⟨hstore, hforms⟩ := conclude_keeps (η := η)
      { s with reader := after, store := (engine.verdict kind form s.store).2 } skip kind
      (engine.verdict kind form s.store).1
    rw [handle_of_ok hread, accept_eq]
    simp only [Event.forms_append, hconsumed, hstore, List.nil_append]
    rw [h.verdict]
    change _ = _ ++ form :: Event.forms (_ ++ _)
    rw [Event.forms_append, hannounced, hforms]
    rfl

theorem step_records (h : engine.Records given) (ops : OperatorTable) (depth : Nat) (skip : Bool)
    (s : Session σ) :
    given (step engine ops depth skip s).session.store =
      given s.store ++ Event.forms (step engine ops depth skip s).events := by
  have hadvance := advanceOver_keeps (η := η) s s.reader.ahead
  unfold step
  split
  · exact handle_records h s _
  · exact handle_records h s _
  · split
    · change given (s.advanceOver (η := η) s.reader.ahead).2.store =
        _ ++ Event.forms (s.advanceOver s.reader.ahead).1
      rw [hadvance.1, hadvance.2, List.append_nil]
    · exact handle_records h s _

theorem runFrom_records (h : engine.Records given) (fuel : Nat) (s : Session σ) :
    given (runFrom engine ops depth skip fuel s).session.store =
      given s.store ++ Event.forms (runFrom engine ops depth skip fuel s).events := by
  induction fuel generalizing s with
  | zero => exact (List.append_nil _).symm
  | succ fuel ih =>
    have hstep := step_records h ops depth skip s
    cases hend : s.reader.token.isEnd with
    | true =>
      rw [runFrom_of_end hend]
      exact (List.append_nil _).symm
    | false =>
      cases hf : (step engine ops depth skip s).fault with
      | some trap =>
        rw [runFrom_of_fault hend hf]
        exact hstep
      | none =>
        rw [runFrom_of_step hend hf]
        simp only [Event.forms_append]
        rw [ih, hstep, List.append_assoc]
        rfl

/-! ### Following the row of forms -/

theorem conclude_readings (s : Session σ) (kind : FormKind) (verdict : Verdict) :
    Event.readings (conclude false kind s verdict : Turn σ η).events = [] ∧
      (conclude false kind s verdict : Turn σ η).session.reader = s.reader := by
  cases verdict with
  | _ => exact ⟨rfl, rfl⟩

theorem handle_readings_ok {form : Form} {after : Reader}
    (h : kind.read ops depth s.reader = .ok form after) :
    Event.readings (handle engine ops depth false s kind).events = [.form form] ∧
      (handle engine ops depth false s kind).session.reader = after := by
  obtain ⟨hevents, hreader⟩ := conclude_readings (η := η)
    { s with reader := after, store := (engine.verdict kind form s.store).2 } kind
    (engine.verdict kind form s.store).1
  rw [handle_of_ok h, accept_eq]
  refine ⟨?_, hreader⟩
  simp only [Event.readings_append, Event.readings_consumed, Event.readings_form,
    Engine.readings_announcement, hevents, List.nil_append]

theorem handle_readings_error {failure : Failure} {after : Reader}
    (h : kind.read ops depth s.reader = .error failure after) :
    ∃ later, Event.readings (handle engine ops depth skip s kind).events =
      .error (.reading failure) :: later := by
  rw [handle_of_error h]
  simp only [recover, if_true, Event.readings_append, Event.readings_consumed,
    Event.readings_error_reading, List.nil_append]
  exact ⟨_, rfl⟩

/-- A step reads the form that stands at the reader, and tells of nothing else. -/
theorem step_of_form_ok (engine : Engine σ η) {found : Option Form} {middle : Reader}
    (hc : s.reader.current = some t) (ht : t.isEnd = false)
    (h : Parse.form? ops depth s.reader = .ok found middle) :
    Event.readings (step engine ops depth false s).events = found.toList.map .form ∧
      (step engine ops depth false s).session.reader = middle := by
  cases hsymbol : t.isSymbol ";" with
  | true =>
    rw [Parse.form_separator_eq hc hsymbol] at h
    obtain ⟨next, own, hfetch, hnone⟩ := step_bind_eq_ok.1 h
    cases hnone
    obtain ⟨hsession, hevents⟩ := advance_of_fetch_ok (η := η) hfetch
    rw [step_of_separator hc hsymbol]
    exact ⟨hevents, congrArg Session.reader hsession⟩
  | false =>
    rw [Parse.form_kind_eq hc ht hsymbol] at h
    obtain ⟨form, hread, rfl⟩ := step_map_eq_ok h
    rw [step_of_form hc hsymbol]
    exact handle_readings_ok hread

theorem step_of_form_error (engine : Engine σ η) {failure : Failure} {after : Reader}
    (hc : s.reader.current = some t) (ht : t.isEnd = false)
    (h : Parse.form? ops depth s.reader = .error failure after) :
    ∃ later, Event.readings (step engine ops depth false s).events =
      .error (.reading failure) :: later := by
  cases hsymbol : t.isSymbol ";" with
  | true =>
    rw [Parse.form_separator_eq hc hsymbol] at h
    have hfetch : ∃ stop, Parse.fetch s.reader = .error failure stop := by
      cases hf : Parse.fetch s.reader with
      | ok next middle =>
        rw [step_bind_ok hf] at h
        cases h
      | error e middle =>
        rw [step_bind_error hf] at h
        cases h
        exact ⟨after, rfl⟩
    obtain ⟨stop, hfetch⟩ := hfetch
    rw [step_of_separator hc hsymbol]
    exact advance_of_fetch_error hfetch
  | false =>
    rw [Parse.form_kind_eq hc ht hsymbol] at h
    rw [step_of_form hc hsymbol]
    cases hread : (FormKind.ofToken t).read ops depth s.reader with
    | ok form middle =>
      rw [step_map_ok hread] at h
      cases h
    | error e middle =>
      rw [step_map_error hread] at h
      cases h
      exact handle_readings_error hread

/-- What events tell of reading where forms are completed and then the input ends or a failure
comes. After the failure anything may follow. -/
def follows (forms : List Form) (later : List (Event η)) : Option Failure → List (Event η)
  | none => forms.map .form
  | some failure => forms.map .form ++ .error (.reading failure) :: later

theorem follows_append (before forms : List Form) (later : List (Event η)) (stop : Option Failure) :
    before.map .form ++ follows forms later stop = follows (before ++ forms) later stop := by
  cases stop with
  | none => rw [follows, follows, List.map_append]
  | some failure => rw [follows, follows, List.map_append, List.append_assoc]

/-- No event tells that reading went too deep. -/
def Shallow (events : List (Event η)) : Prop :=
  ∀ failure, .error (.reading failure) ∈ events → failure.diagnostic.code ≠ some "P004"

theorem Shallow.of_append {events more : List (Event η)} (h : Shallow (events ++ more)) :
    Shallow events ∧ Shallow more :=
  ⟨fun failure hmem => h failure (List.mem_append_left _ hmem),
    fun failure hmem => h failure (List.mem_append_right _ hmem)⟩

theorem not_exhausted_of_shallow (hc : s.reader.current = some t) (ht : t.isEnd = false)
    (h : Shallow (step engine ops depth false s).events) :
    ¬ Parse.Exhausted (Parse.form? ops depth s.reader) := by
  rintro ⟨u, after, hdeep⟩
  obtain ⟨later, hreadings⟩ := step_of_form_error engine hc ht hdeep
  have hmem : .error (.reading (.unexpected .lessNesting u)) ∈
      Event.readings (step engine ops depth false s).events := by
    rw [hreadings]
    exact List.mem_cons_self ..
  exact h _ (List.mem_filter.1 hmem).1 rfl

/-- The session has a budget and a frozen table of its own. The induction is on the row, and each
step of the session takes one form or separator of it. -/
theorem runFrom_follows {n m fuel : Nat} {forms : List Form} {stop : Option Failure}
    (hrow : Parse.Row ops n s.reader forms stop) (hr : s.reader.Standing)
    (hfuel : s.reader.ahead.length < fuel)
    (hstop : ∀ failure, stop = some failure → failure.diagnostic.code ≠ some "P004")
    (hfault : (runFrom engine ops.freeze m false fuel s).fault = none)
    (hshallow : Shallow (runFrom engine ops.freeze m false fuel s).events) :
    ∃ later, Event.readings (runFrom engine ops.freeze m false fuel s).events =
      follows forms later stop := by
  have hops : ∀ t, ops.freeze.precedence t = ops.precedence t := fun _ => rfl
  obtain ⟨fuel, rfl⟩ : ∃ k, fuel = k + 1 := ⟨fuel - 1, by omega⟩
  generalize hreader : s.reader = r at hrow
  induction hrow generalizing s fuel with
  | done hc ht =>
    subst hreader
    rw [runFrom_of_end (by rwa [token_of_some hc])]
    exact ⟨[], rfl⟩
  | @failed r after t failure hc ht h =>
    subst hreader
    have hopen : s.reader.token.isEnd = false := by rwa [token_of_some hc]
    cases hf : (step engine ops.freeze m false s).fault with
    | some trap =>
      rw [runFrom_of_fault hopen hf, hf] at hfault
      cases hfault
    | none =>
      rw [runFrom_of_step hopen hf] at hshallow ⊢
      have hn : ¬ Parse.Exhausted (Parse.form? ops n s.reader) := by
        rintro ⟨u, stop, hdeep⟩
        cases h.symm.trans hdeep
        exact hstop _ rfl rfl
      have hm := not_exhausted_of_shallow hc ht hshallow.of_append.1
      have hsame := (Parse.form_eq_of_not_exhausted hops hn hm).trans h
      obtain ⟨later, hreadings⟩ := step_of_form_error engine hc ht hsame
      rw [Event.readings_append, hreadings]
      exact ⟨_, rfl⟩
  | @next r middle t found forms stop hc ht h hrest ih =>
    subst hreader
    have hopen : s.reader.token.isEnd = false := by rwa [token_of_some hc]
    cases hf : (step engine ops.freeze m false s).fault with
    | some trap =>
      rw [runFrom_of_fault hopen hf, hf] at hfault
      cases hfault
    | none =>
      rw [runFrom_of_step hopen hf] at hfault hshallow ⊢
      have hn : ¬ Parse.Exhausted (Parse.form? ops n s.reader) := by
        rintro ⟨u, stop, hdeep⟩
        cases h.symm.trans hdeep
      have hm := not_exhausted_of_shallow hc ht hshallow.of_append.1
      have hsame := (Parse.form_eq_of_not_exhausted hops hn hm).trans h
      obtain ⟨hreadings, hmiddle⟩ := step_of_form_ok engine hc ht hsame
      obtain ⟨hstanding, hless⟩ := Parse.form_takes hr hc ht h
      obtain ⟨fuel, rfl⟩ : ∃ k, fuel = k + 1 := ⟨fuel - 1, by omega⟩
      have hlast : Shallow (runFrom engine ops.freeze m false (fuel + 1)
          (step engine ops.freeze m false s).session).events :=
        fun failure hmem => hshallow.of_append.2 failure (List.mem_cons_of_mem _ hmem)
      obtain ⟨later, hlater⟩ :=
        ih (by rwa [hmiddle]) hstop fuel (by rw [hmiddle]; omega) hfault hlast hmiddle
      refine ⟨later, ?_⟩
      rw [Event.readings_append, hreadings, Event.readings_prompt, hlater, follows_append]

/-! ### Whole sessions -/

theorem run_eq (engine : Engine σ η) (ops : OperatorTable) (depth : Nat) (skip : Bool) (store : σ)
    (items : List Lexeme) :
    let start : List (Event η) × Session σ :=
      advance { reader := .ofLexemes items, store }
    let turn := runFrom engine ops.freeze depth skip (items.length + 1) start.2
    run engine ops depth skip store items =
      { turn with events := .prompt :: start.1 ++ turn.events } := rfl

theorem run_records (h : engine.Records given) (store : σ) (items : List Lexeme) :
    given (run engine ops depth skip store items).session.store =
      given store ++ Event.forms (run engine ops depth skip store items).events := by
  obtain ⟨hstore, hforms⟩ := advanceOver_keeps (η := η)
    { reader := .ofLexemes items, store } (Reader.ofLexemes items).ahead
  rw [run_eq]
  simp only [Event.forms_append]
  rw [runFrom_records h]
  change given (advanceOver (η := η) _ _).2.store ++ _ = _ ++ (Event.forms (advanceOver _ _).1 ++ _)
  rw [hstore, hforms, List.nil_append]

theorem run_follows {n m : Nat} {store : σ} {file : String} {source : List Char}
    {forms : List Form} {stop : Option Failure}
    (hrow : Parse.WholeRow ops n (.ofSource file source) forms stop)
    (hstop : ∀ failure, stop = some failure → failure.diagnostic.code ≠ some "P004")
    (hfault : (run engine ops m false store (lexemes file source)).fault = none)
    (hshallow : Shallow (run engine ops m false store (lexemes file source)).events) :
    ∃ later, Event.readings (run engine ops m false store (lexemes file source)).events =
      follows forms later stop := by
  have hinside := Reader.inside_ofSource file source
  rw [run_eq] at hfault hshallow ⊢
  cases hrow with
  | failed h =>
    obtain ⟨later, hlater⟩ := advance_of_fetch_error (η := η)
      (s := { reader := .ofSource file source, store }) h
    simp only [Reader.ofSource] at hlater
    rw [List.cons_append, Event.readings_prompt, Event.readings_append, hlater]
    exact ⟨_, rfl⟩
  | @start t first _ _ h hrow =>
    obtain ⟨hafter, hevents⟩ := advance_of_fetch_ok (η := η)
      (s := { reader := .ofSource file source, store }) h
    obtain ⟨_, _, notes, hitems⟩ := Parse.fetch_ofSource h
    obtain ⟨hstanding, _⟩ := Parse.standing_of_fetch hinside h
    have hfuel : first.ahead.length < (lexemes file source).length + 1 := by
      rw [hitems, List.length_cons]
      omega
    simp only [Reader.ofSource] at hafter hevents
    simp only [hafter] at hfault hshallow ⊢
    obtain ⟨later, hlater⟩ := runFrom_follows hrow hstanding hfuel hstop hfault
      hshallow.of_append.2
    refine ⟨later, ?_⟩
    rw [List.cons_append, Event.readings_prompt, Event.readings_append, hevents, hlater]
    rfl

end Session

/-- The three loops over a source, each with a depth budget of its own that is not exhausted, and a
session that ends with the input: if all forms can be read, the session reads and hands over exactly
these and reports nothing that could not be read, and the loop to the first form finds it or reports
that there is none; if not, the session hands over the forms that were complete by then, and the
first that it cannot read is the same failure. What an engine is given is what the session tells. -/
theorem reading_loops_agree (engine : Engine σ η) (store : σ) (ops : OperatorTable) (n m k : Nat)
    (file : String) (source : List Char)
    (hall : ∀ failure, (Parse.all ops n).result (.ofSource file source) = .error failure →
      failure.diagnostic.code ≠ some "P004")
    (hfirst : ∀ failure, (Parse.first ops k).result (.ofSource file source) = .error failure →
      failure.diagnostic.code ≠ some "P004")
    (hsession : Session.Shallow (Session.run engine ops m false store (lexemes file source)).events)
    (hfault : (Session.run engine ops m false store (lexemes file source)).fault = none) :
    let turn := Session.run engine ops m false store (lexemes file source)
    (∀ forms, (Parse.all ops n).result (.ofSource file source) = .ok forms →
      Event.readings turn.events = forms.map .form ∧
        (∀ form rest, forms = form :: rest →
          (Parse.first ops k).result (.ofSource file source) = .ok form) ∧
        (forms = [] → ∃ failure,
          (Parse.first ops k).result (.ofSource file source) = .error failure ∧
            failure.diagnostic.code = some "P001")) ∧
    (∀ failure, (Parse.all ops n).result (.ofSource file source) = .error failure →
      ∃ forms later, Parse.WholeRow ops n (.ofSource file source) forms (some failure) ∧
        Event.readings turn.events = forms.map .form ++ .error (.reading failure) :: later) ∧
    ∀ given, engine.Records given →
      given turn.session.store = given store ++ Event.forms turn.events := by
  intro turn
  have hinside := Reader.inside_ofSource file source
  refine ⟨fun forms h => ?_, fun failure h => ?_, fun given hgiven =>
    Session.run_records hgiven store (lexemes file source)⟩
  · have hrow := Parse.wholeRow_of_all hinside h
    have hopen : ¬ Parse.Exhausted (Parse.first ops k (.ofSource file source)) := by
      rintro ⟨t, after, hdeep⟩
      refine hfirst (.unexpected .lessNesting t) ?_ rfl
      rw [Parse.result, hdeep]
    obtain ⟨hone, hnone⟩ := hrow.first_eq hinside hopen
    obtain ⟨later, hreadings⟩ := Session.run_follows hrow (fun _ h => by cases h) hfault hsession
    refine ⟨hreadings, hone, fun hempty => ?_⟩
    obtain ⟨t, ht⟩ := hnone hempty
    exact ⟨_, ht, rfl⟩
  · obtain ⟨forms, hrow⟩ := Parse.wholeRow_of_all_error hinside h
    have hstop : ∀ own, some failure = some own → own.diagnostic.code ≠ some "P004" := by
      intro own hown
      cases hown
      exact hall failure h
    obtain ⟨later, hreadings⟩ := Session.run_follows hrow hstop hfault hsession
    exact ⟨forms, later, hrow, hreadings⟩

/-- The code of the failure that a step of reading ends with. -/
def Parse.failureCode {α : Type} (step : Parse α) (r : Reader) : Option String :=
  match step.result r with
  | .error failure => failure.diagnostic.code
  | .ok _ => none

theorem Parse.code_of_error {α : Type} {step : Parse α} {r : Reader} {failure : Failure}
    (h : step.result r = .error failure) : failure.diagnostic.code = step.failureCode r := by
  rw [failureCode, h]

set_option maxRecDepth 20000 in
theorem rejected_form_session :
    let turn := Session.run (Interpreter.engine [] 9) .standard 9 false {}
      (lexemes "" "extern f(x); f(y) )".toList)
    (turn.fault, (Event.forms turn.events).length, turn.events.all fun event =>
      match event with
      | .error (.reading failure) => failure.diagnostic.code != some "P004"
      | _ => true) = (none, 2, true) := by cbv

/-- The engine accepts the declaration and rejects the call, whose argument is unknown. Both have
been handed to it when the parenthesis turns up that starts no form. -/
theorem reading_loops_agree_rejected_form :
    let source := "extern f(x); f(y) )".toList
    let turn := Session.run (Interpreter.engine [] 9) .standard 9 false {} (lexemes "" source)
    turn.fault = none ∧ (Event.forms turn.events).length = 2 ∧ ∃ failure forms later,
      (Parse.all .standard 9).result (.ofSource "" source) = .error failure ∧
        failure.diagnostic.code = some "P002" ∧
        Parse.WholeRow .standard 9 (.ofSource "" source) forms (some failure) ∧
        Event.readings turn.events = forms.map .form ++ .error (.reading failure) :: later := by
  have hcode : (Parse.all .standard 9).failureCode
      (.ofSource "" "extern f(x); f(y) )".toList) = some "P002" := by cbv
  have hfirst : (Parse.first .standard 9).failureCode
      (.ofSource "" "extern f(x); f(y) )".toList) = none := by cbv
  obtain ⟨hfault, hlength, hshallow⟩ :
      _ ∧ _ ∧ _ := by simpa only [Prod.mk.injEq] using rejected_form_session
  have hmain := reading_loops_agree (Interpreter.engine [] 9) {} .standard 9 9 9 ""
    "extern f(x); f(y) )".toList
    (fun failure hfailure => by
      rw [Parse.code_of_error hfailure, hcode]
      decide)
    (fun failure hfailure => by
      rw [Parse.code_of_error hfailure, hfirst]
      decide)
    (fun failure hmem => by
      have hown := List.all_eq_true.1 hshallow _ hmem
      simpa using hown)
    hfault
  refine ⟨hfault, hlength, ?_⟩
  cases hall : (Parse.all .standard 9).result (.ofSource "" "extern f(x); f(y) )".toList) with
  | ok forms =>
    rw [Parse.failureCode, hall] at hcode
    cases hcode
  | error failure =>
    obtain ⟨forms, later, hrow, hreadings⟩ := hmain.2.1 failure hall
    exact ⟨failure, forms, later, rfl, (Parse.code_of_error hall).trans hcode, hrow, hreadings⟩

end ScalarLang
