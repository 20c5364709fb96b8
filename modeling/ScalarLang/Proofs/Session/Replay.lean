import ScalarLang.Proofs.Session.Segments
import ScalarLang.Proofs.Session.Transcript

/-!
# Sessions replayed

The forms that a session has read, handed to the engine alone and in the same order, give the blocks
of its transcript: for each form that the engine accepts its echo, and below that of an expression
its value if it has one. The counters of the session count these blocks, and the rest of what it
counts are errors.
-/
namespace ScalarLang

variable {σ η : Type}

/-! ### Forms without a session -/

/-- The kind of a form: a function without a name wraps a bare expression. -/
def Form.kind : Form → FormKind
  | .external _ => .external
  | .function f => if f.prototype.isAnonymous then .expression else .definition

theorem FormKind.kind_of_read {ops : OperatorTable} {depth : Nat} {kind : FormKind}
    {r after : Reader} {form : Form} (hr : r.Inside) (h : kind.read ops depth r = .ok form after) :
    form.kind = kind := by
  cases kind with
  | external =>
    obtain ⟨p, _, rfl⟩ := step_map_eq_ok h
    rfl
  | definition =>
    obtain ⟨f, hf, rfl⟩ := step_map_eq_ok h
    obtain ⟨_, first, hfetch, hf⟩ := step_bind_eq_ok.1 hf
    obtain ⟨p, second, hproto, hf⟩ := step_bind_eq_ok.1 hf
    obtain ⟨body, last, _, hf⟩ := step_bind_eq_ok.1 hf
    cases hf
    have hword := Parse.prototype_isWord (Parse.inside_of_fetch hr hfetch) hproto
    simp [Form.kind, Prototype.isAnonymous, hword.1]
  | expression =>
    obtain ⟨f, hf, rfl⟩ := step_map_eq_ok h
    obtain ⟨t, first, _, hf⟩ := step_bind_eq_ok.1 hf
    obtain ⟨body, last, _, hf⟩ := step_bind_eq_ok.1 hf
    cases hf
    rfl

/-- The part of a transcript that belongs to an accepted form. -/
structure Block where
  kind : FormKind
  text : String
  value : Option Float

namespace Block

/-- The echo in two lines, and the line of the value if there is one. -/
def out (block : Block) : String :=
  block.kind.heading ++ "\n" ++ block.text ++ "\n" ++ block.value.elim "" valueLine

def entries (block : Block) : List Entry :=
  .echo block.kind block.text :: block.value.toList.map .value

theorem join_out {shown : Presentation} (h : shown.echo = true) (blocks : List Block) :
    String.join ((blocks.flatMap entries).map (Entry.out shown)) =
      String.join (blocks.map out) := by
  induction blocks with
  | nil => rfl
  | cons block rest ih =>
    obtain ⟨kind, text, value⟩ := block
    rw [List.flatMap_cons, List.map_append, String.join_append, ih, List.map_cons, String.join_cons]
    cases value with
    | none => simp [entries, out, Entry.out, h]
    | some x => simp [entries, out, Entry.out, h, valueLine]

theorem filterMap_value (blocks : List Block) :
    (blocks.flatMap entries).filterMap Entry.value? = blocks.filterMap value := by
  induction blocks with
  | nil => rfl
  | cons block rest ih =>
    obtain ⟨kind, text, value⟩ := block
    rw [List.flatMap_cons, List.filterMap_append, ih]
    cases value with
    | none => rfl
    | some x => rfl

theorem countP_isEcho (kind : FormKind) (blocks : List Block) :
    (blocks.flatMap entries).countP (Entry.isEcho kind) =
      blocks.countP fun block => block.kind == kind := by
  induction blocks with
  | nil => rfl
  | cons block rest ih =>
    obtain ⟨own, text, value⟩ := block
    rw [List.flatMap_cons, List.countP_append, ih, List.countP_cons, Nat.add_comm]
    cases value with
    | none => simp [entries, List.countP_cons, Entry.isEcho]
    | some x => simp [entries, List.countP_cons, Entry.isEcho]

end Block

namespace Engine

/-- Hands a form to the engine and runs it if it is an expression: the block of the form, if it is
accepted, and the store after it. -/
def block? (engine : Engine σ η) (s : σ) (form : Form) : Option Block × σ :=
  match Session.submit engine form s with
  | .error _ after => (none, after)
  | .ok lowered after =>
    match form.kind with
    | .expression =>
      match engine.execute lowered.handle after with
      | .ok x last => (some ⟨.expression, engine.describe lowered.handle, some x⟩, last)
      | .error _ last => (some ⟨.expression, engine.describe lowered.handle, none⟩, last)
    | kind => (some ⟨kind, engine.describe lowered.handle, none⟩, after)

def replay (engine : Engine σ η) : σ → List Form → List Block × σ
  | s, [] => ([], s)
  | s, form :: rest =>
    let first := engine.block? s form
    let others := engine.replay first.2 rest
    (first.1.toList ++ others.1, others.2)

theorem replay_append (engine : Engine σ η) (s : σ) (forms more : List Form) :
    engine.replay s (forms ++ more) =
      ((engine.replay s forms).1 ++ (engine.replay (engine.replay s forms).2 more).1,
        (engine.replay (engine.replay s forms).2 more).2) := by
  induction forms generalizing s with
  | nil => rfl
  | cons form rest ih => simp only [List.cons_append, replay, ih, List.append_assoc]

end Engine

/-! ### Events of a replay -/

namespace Event

/-- The entries of events that are no errors. -/
def results (describe : η → String) (events : List (Event η)) : List Entry :=
  (entries describe events).filter fun entry => entry.message?.isNone

theorem results_append (describe : η → String) (events more : List (Event η)) :
    results describe (events ++ more) = results describe events ++ results describe more := by
  rw [results, entries_append, List.filter_append, results, results]

theorem results_of_entries {describe : η → String} {events : List (Event η)}
    (h : entries describe events = []) : results describe events = [] := by
  rw [results, h]
  rfl

end Event

/-- The events between two stores are those of a replay: their forms, handed to the engine alone,
give the same blocks and the same store. -/
structure Engine.Replays (engine : Engine σ η) (s : σ) (events : List (Event η)) (after : σ) :
    Prop where
  results : Event.results engine.describe events =
    (engine.replay s (Event.forms events)).1.flatMap Block.entries
  store : after = (engine.replay s (Event.forms events)).2

namespace Engine.Replays

variable {engine : Engine σ η} {s middle after : σ} {events more : List (Event η)}

theorem append (h : engine.Replays s events middle) (h' : engine.Replays middle more after) :
    engine.Replays s (events ++ more) after := by
  have hmiddle := h.store
  refine ⟨?_, ?_⟩
  · rw [Event.results_append, Event.forms_append, replay_append, List.flatMap_append, h.results,
      h'.results, hmiddle]
  · rw [Event.forms_append, replay_append, h'.store, hmiddle]

theorem of_nothing (hforms : Event.forms events = [])
    (hresults : Event.results engine.describe events = []) : engine.Replays s events s := by
  refine ⟨?_, ?_⟩
  · rw [hforms, hresults]
    rfl
  · rw [hforms]
    rfl

end Engine.Replays

namespace Session

variable {engine : Engine σ η} {ops : OperatorTable} {depth : Nat} {skip : Bool} {s : Session σ}
  {kind : FormKind}

theorem advanceOver_results (describe : η → String) (s : Session σ) (items : List Lexeme) :
    Event.results describe (s.advanceOver items : List (Event η) × Session σ).1 = [] := by
  induction items generalizing s with
  | nil => rfl
  | cons l rest ih =>
    obtain ⟨notes, item⟩ := l
    have hl : Event.results describe (itemEvents ⟨notes, item⟩ : List (Event η)) = [] :=
      Event.results_of_entries (Event.entries_itemEvents describe _)
    cases item with
    | token t => exact hl
    | malformed fault =>
      simp only [advanceOver, Event.results_append, hl, List.nil_append]
      exact ih _

theorem advance_replays (engine : Engine σ η) (s : Session σ) :
    let moved : List (Event η) × Session σ := s.advance
    engine.Replays s.store moved.1 moved.2.store := by
  obtain ⟨hstore, hforms⟩ := advanceOver_keeps (η := η) s s.reader.ahead
  intro moved
  rw [show moved.2.store = s.store from hstore]
  exact .of_nothing hforms (advanceOver_results engine.describe s s.reader.ahead)

theorem recover_replays (engine : Engine σ η) (s : Session σ) (skip : Bool) (report : Report) :
    let recovery : List (Event η) × Session σ := s.recover skip report
    engine.Replays s.store recovery.1 recovery.2.store := by
  obtain ⟨hstore, hforms⟩ := recover_keeps (η := η) s skip report
  intro recovery
  rw [show recovery.2.store = s.store from hstore]
  refine .of_nothing hforms ?_
  cases skip with
  | false => rfl
  | true => exact advanceOver_results engine.describe { s with stats := s.stats.report report } _

theorem conclude_results (describe : η → String) (s : Session σ) (skip : Bool) (kind : FormKind)
    (verdict : Verdict) :
    Event.results describe (conclude skip kind s verdict : Turn σ η).events =
      match verdict with
      | .value x => [.value x]
      | _ => [] := by
  cases verdict with
  | rejected d =>
    cases skip with
    | false => rfl
    | true =>
      exact advanceOver_results describe { s with stats := s.stats.report (.engine d) } _
  | _ => rfl

theorem accept_results (engine : Engine σ η) (skip : Bool) (s : Session σ) (form : Form) :
    let turn := accept engine skip s form.kind form
    Event.results engine.describe turn.events =
        (engine.block? s.store form).1.toList.flatMap Block.entries ∧
      turn.session.store = (engine.block? s.store form).2 := by
  intro turn
  simp only [turn, accept_eq, Event.results_append, conclude_results]
  rw [(conclude_keeps _ skip form.kind _).1]
  unfold Engine.verdict Engine.announcement Engine.block?
  cases submit engine form s.store with
  | error rejection after => exact ⟨rfl, rfl⟩
  | ok lowered after =>
    have hechoed : ∀ kind : FormKind, Event.results engine.describe
        (engine.logged lowered.log ++ [.echo kind lowered.handle]) =
          [.echo kind (engine.describe lowered.handle)] := by
      intro kind
      rw [Event.results, Event.entries_append, Event.entries_logged]
      rfl
    have htrace : Event.results engine.describe
        (engine.logged (engine.trace after lowered.handle)) = [] :=
      Event.results_of_entries (Event.entries_logged ..)
    cases form.kind with
    | expression =>
      simp only [Event.results_append, hechoed, htrace, List.append_nil]
      unfold Engine.outcome
      cases engine.execute lowered.handle after with
      | ok x last => exact ⟨rfl, rfl⟩
      | error trap last =>
        dsimp only
        cases trap.diagnostic? with
        | some d => exact ⟨rfl, rfl⟩
        | none => exact ⟨rfl, rfl⟩
    | definition => exact ⟨by rw [hechoed]; rfl, rfl⟩
    | external => exact ⟨by rw [hechoed]; rfl, rfl⟩

theorem accept_replays (engine : Engine σ η) (skip : Bool) (s : Session σ) (form : Form) :
    let turn := accept engine skip s form.kind form
    engine.Replays s.store (.form form :: turn.events) turn.session.store := by
  intro turn
  obtain ⟨hresults, hstore⟩ := accept_results engine skip s form
  have hforms : Event.forms turn.events = [] := by
    simp only [turn, accept_eq, Event.forms_append, (conclude_keeps _ skip form.kind _).2,
      List.append_nil]
    exact Event.forms_of_readings (engine.readings_announcement form.kind form s.store)
  have hone : Event.forms (.form form :: turn.events) = [form] := by
    change form :: Event.forms turn.events = [form]
    rw [hforms]
  have hreplay : engine.replay s.store [form] =
      ((engine.block? s.store form).1.toList, (engine.block? s.store form).2) := by
    simp only [Engine.replay, List.append_nil]
  refine ⟨?_, ?_⟩
  · rw [hone, hreplay]
    exact hresults
  · rw [hone, hreplay]
    exact hstore

theorem handle_replays (engine : Engine σ η) (ops : OperatorTable) (depth : Nat) (skip : Bool)
    (hr : s.reader.Inside) (kind : FormKind) :
    let turn := handle engine ops depth skip s kind
    engine.Replays s.store turn.events turn.session.store := by
  have hconsumed : ∀ after, engine.Replays s.store
      ((s.reader.consumed after).flatMap itemEvents) s.store :=
    fun after => .of_nothing (Event.forms_of_readings (Event.readings_consumed _))
      (Event.results_of_entries (Event.entries_consumed engine.describe _))
  intro turn
  cases hread : kind.read ops depth s.reader with
  | error failure after =>
    simp only [turn, handle_of_error hread]
    exact (hconsumed after).append (recover_replays engine { s with reader := after } true _)
  | ok form after =>
    have hkind := FormKind.kind_of_read hr hread
    subst hkind
    simp only [turn, handle_of_ok hread]
    exact (hconsumed after).append (accept_replays engine skip { s with reader := after } form)

theorem step_replays (engine : Engine σ η) (ops : OperatorTable) (depth : Nat) (skip : Bool)
    (hr : s.reader.Inside) :
    let turn := step engine ops depth skip s
    engine.Replays s.store turn.events turn.session.store := by
  intro turn
  rcases step_cases engine ops depth skip s with hstep | ⟨kind, hstep⟩
  · simp only [turn, hstep]
    exact advance_replays engine s
  · simp only [turn, hstep]
    exact handle_replays engine ops depth skip hr kind

/-- The induction is on the rounds, and every round starts inside the source. -/
theorem runFrom_replays (engine : Engine σ η) (ops : OperatorTable) (depth : Nat) (skip : Bool)
    (fuel : Nat) (hr : s.reader.Standing) :
    let turn := runFrom engine ops depth skip fuel s
    engine.Replays s.store turn.events turn.session.store := by
  induction fuel generalizing s with
  | zero => exact .of_nothing rfl rfl
  | succ fuel ih =>
    have hstep := step_replays engine ops depth skip hr.inside
    cases hend : s.reader.token.isEnd with
    | true =>
      rw [runFrom_of_end hend]
      exact .of_nothing rfl rfl
    | false =>
      cases hf : (step engine ops depth skip s).fault with
      | some trap =>
        rw [runFrom_of_fault hend hf]
        exact hstep
      | none =>
        obtain ⟨hstanding, _⟩ := step_less engine ops depth skip hr hend
        have hprompt : engine.Replays (step engine ops depth skip s).session.store [.prompt] _ :=
          .of_nothing rfl rfl
        rw [runFrom_of_step hend hf]
        exact hstep.append (hprompt.append (ih hstanding))

theorem run_replays (engine : Engine σ η) (ops : OperatorTable) (depth : Nat) (skip : Bool)
    (store : σ) (file : String) (source : List Char) :
    let turn := run engine ops depth skip store (lexemes file source)
    engine.Replays store turn.events turn.session.store := by
  obtain ⟨hstanding, _⟩ := start_standing η store file source
  have hstart := advance_replays engine
    ({ reader := .ofSource file source, store } : Session σ)
  have hprompt : engine.Replays store [.prompt] store := .of_nothing rfl rfl
  rw [run_eq]
  exact (hprompt.append hstart).append
    (runFrom_replays engine ops.freeze depth skip _ hstanding)

end Session

/-! ### What a session accounts for -/

/-- The line of an error: its message, and its place behind that if it has one. -/
def errorLine (d : Diagnostic) : String :=
  let place := d.location.elim "" fun l => s!" ({l.file}:{l.line}:{l.column})"
  "Error: " ++ d.message ++ place ++ "\n"

theorem Diagnostic.line_eq (d : Diagnostic) : d.line = errorLine d := by
  unfold line errorLine
  cases d.location with
  | none =>
    change "Error: " ++ d.message ++ "\n" = "Error: " ++ d.message ++ "" ++ "\n"
    rw [String.append_empty]
  | some l =>
    have hclose : ")" ++ "\n" = ")\n" := rfl
    change "Error: " ++ d.message ++ " (" ++ l.text ++ ")\n" =
      "Error: " ++ d.message ++ (" (" ++ l.file ++ ":" ++ toString l.line ++ ":" ++
        toString l.column ++ ")") ++ "\n"
    rw [← hclose, Location.text]
    change _ ++ (l.file ++ ":" ++ toString l.line ++ ":" ++ toString l.column) ++ _ = _
    simp only [String.append_assoc]

/-- The statistics of a session and its transcript agree: each error that is counted has its line on
the error output, and on the standard output each value has its line and, with echoes, each accepted
form has its block. -/
structure Turn.Accounted (engine : Engine σ η) (store : σ) (turn : Turn σ η) : Prop where
  evaluations : turn.session.stats.evaluations = turn.session.stats.values.length
  errors : turn.session.stats.errors = turn.session.stats.messages.length
  messages : turn.session.stats.messages =
    (Event.reports turn.events).map fun report => report.diagnostic.message
  err : ∀ shown : Presentation, shown.Plain → Event.errText shown turn.events =
    String.join ((Event.reports turn.events).map fun report => errorLine report.diagnostic)
  quiet : ∀ shown : Presentation, shown.echo = false →
    Event.outText engine.describe shown turn.events =
      String.join (turn.session.stats.values.map valueLine)
  echoed : ∀ shown : Presentation, shown.echo = true →
    Event.outText engine.describe shown turn.events =
      String.join ((engine.replay store (Event.forms turn.events)).1.map Block.out)
  definitions : turn.session.stats.definitions =
    (engine.replay store (Event.forms turn.events)).1.countP fun block => block.kind == .definition
  externals : turn.session.stats.externals =
    (engine.replay store (Event.forms turn.events)).1.countP fun block => block.kind == .external
  values : turn.session.stats.values =
    (engine.replay store (Event.forms turn.events)).1.filterMap Block.value
  store : turn.session.store = (engine.replay store (Event.forms turn.events)).2

namespace Event

variable (describe : η → String) (events : List (Event η))

/-- Errors write nothing on the standard output. -/
theorem join_out_results (shown : Presentation) :
    String.join ((results describe events).map (Entry.out shown)) =
      String.join ((entries describe events).map (Entry.out shown)) := by
  refine join_filter (fun entry h => ?_) _
  cases entry with
  | error message => rfl
  | _ => cases h

theorem filterMap_value_results :
    (results describe events).filterMap Entry.value? =
      (entries describe events).filterMap Entry.value? := by
  rw [results, List.filterMap_filter]
  congr 1
  funext entry
  cases entry with
  | _ => rfl

theorem countP_isEcho_results (kind : FormKind) :
    (results describe events).countP (Entry.isEcho kind) =
      (entries describe events).countP (Entry.isEcho kind) := by
  rw [results, List.countP_filter]
  congr 1
  funext entry
  cases entry with
  | error message => rfl
  | value x => rfl
  | echo own text => exact Bool.and_true _

end Event

/-- Every session accounts for what it counts, with any engine and also if a fault cuts it short. -/
theorem Session.run_accounted (engine : Engine σ η) (ops : OperatorTable) (depth : Nat)
    (skip : Bool) (store : σ) (file : String) (source : List Char) :
    (run engine ops depth skip store (lexemes file source)).Accounted engine store := by
  have htally := run_tally engine engine.describe ops depth skip store (lexemes file source)
  obtain ⟨hresults, hstore⟩ := run_replays engine ops depth skip store file source
  generalize run engine ops depth skip store (lexemes file source) = turn at *
  rw [Stats.foldl_enter_fields] at htally
  simp only [List.nil_append, Nat.zero_add] at htally
  have hvalues := Event.filterMap_value_results engine.describe turn.events
  have hcount := Event.countP_isEcho_results engine.describe turn.events
  have hout := Event.join_out_results engine.describe turn.events
  simp only [hresults, Block.filterMap_value, Block.countP_isEcho] at hvalues hcount hout
  refine ⟨?_, ?_, ?_, fun shown hshown => ?_, fun shown hshown => ?_, fun shown hshown => ?_,
    ?_, ?_, ?_, hstore⟩
  · rw [htally]
  · rw [htally]
  · rw [htally, Event.messages_entries]
  · simp only [Event.errText_eq hshown, Diagnostic.line_eq]
  · rw [htally, Event.outText_eq, Entry.join_out_of_quiet hshown]
  · rw [Event.outText_eq, ← hout, Block.join_out hshown]
  · rw [htally, hcount]
  · rw [htally, hcount]
  · rw [htally, hvalues]

end ScalarLang
