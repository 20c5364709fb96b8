import ScalarLang.Proofs.Parse.Rows
import ScalarLang.Session.Run

/-!
# Steps of a session

What each step of a session does to the reader, to the counters and to the store, and which of its
events tell of reading. What becomes of a form is decided by the engine alone (`Engine.verdict`); a
session only draws the conclusions from that.
-/
namespace ScalarLang

/-! ### Events -/

namespace Event

variable {η : Type}

/-- The event tells of reading: a form has been read, or something could not be read. -/
def isReading : Event η → Bool
  | form _ => true
  | error (.reading _) => true
  | _ => false

def readings (events : List (Event η)) : List (Event η) := events.filter isReading

def forms (events : List (Event η)) : List Form :=
  events.filterMap fun event =>
    match event with
    | form f => some f
    | _ => none

@[simp] theorem readings_append (events more : List (Event η)) :
    readings (events ++ more) = readings events ++ readings more := List.filter_append ..

@[simp] theorem readings_prompt (events : List (Event η)) :
    readings (.prompt :: events) = readings events := rfl

@[simp] theorem readings_form (f : Form) (events : List (Event η)) :
    readings (.form f :: events) = .form f :: readings events := rfl

@[simp] theorem readings_error_reading (failure : Failure) (events : List (Event η)) :
    readings (.error (.reading failure) :: events) =
      .error (.reading failure) :: readings events := rfl

theorem forms_eq_forms_readings (events : List (Event η)) :
    forms events = forms (readings events) := by
  induction events with
  | nil => rfl
  | cons event rest ih =>
    cases event with
    | form f =>
      change f :: forms rest = f :: forms (readings rest)
      rw [ih]
    | error report =>
      cases report with
      | reading failure => exact ih
      | engine d => exact ih
    | _ => exact ih

theorem readings_eq_nil {events : List (Event η)} (h : ∀ event ∈ events, event.isReading = false) :
    readings events = [] := by
  rw [readings, List.filter_eq_nil_iff]
  intro event hevent
  simp [h event hevent]

@[simp] theorem readings_itemEvents (l : Lexeme) :
    readings (Session.itemEvents l : List (Event η)) = [] := by
  apply readings_eq_nil
  intro event hevent
  unfold Session.itemEvents at hevent
  rcases List.mem_append.1 hevent with hnote | hend
  · obtain ⟨note, _, rfl⟩ := List.mem_map.1 hnote
    rfl
  · split at hend
    · rw [List.mem_singleton.1 hend]
      rfl
    · cases hend

theorem readings_consumed (items : List Lexeme) :
    readings (items.flatMap Session.itemEvents : List (Event η)) = [] := by
  induction items with
  | nil => rfl
  | cons l rest ih => rw [List.flatMap_cons, readings_append, readings_itemEvents, ih]; rfl

end Event

/-! ### Counters -/

namespace Stats

/-- All that a session has counted. -/
def total (s : Stats) : Nat := s.definitions + s.externals + s.evaluations + s.errors

/-- Counts malformed literals as errors. -/
def reportAll (s : Stats) (faults : List Malformed) : Stats :=
  faults.foldl (fun s fault => s.report (.reading (.malformed fault))) s

@[simp] theorem total_report (s : Stats) (report : Report) :
    (s.report report).total = s.total + 1 := rfl

@[simp] theorem total_evaluate (s : Stats) (x : Float) : (s.evaluate x).total = s.total + 1 := by
  simp only [total, evaluate]
  omega

@[simp] theorem total_reportAll (s : Stats) (faults : List Malformed) :
    (s.reportAll faults).total = s.total + faults.length := by
  induction faults generalizing s with
  | nil => rfl
  | cons fault rest ih =>
    have hrest := ih (s.report (.reading (.malformed fault)))
    rw [total_report] at hrest
    rw [reportAll, List.foldl_cons, ← reportAll, hrest, List.length_cons]
    omega

end Stats

/-! ### Moving on -/

namespace Session

variable {σ η : Type} {s : Session σ} {t : Token}

theorem token_of_some (hc : s.reader.current = some t) : s.reader.token = t := by
  rw [Reader.token, hc]
  rfl

theorem advance_of_fetch_ok {after : Reader} (hf : Parse.fetch s.reader = .ok t after) :
    (s.advance : List (Event η) × Session σ).2 = { s with reader := after } ∧
      Event.readings (s.advance : List (Event η) × Session σ).1 = [] := by
  unfold advance
  cases ha : s.reader.ahead with
  | nil =>
    rw [Parse.fetch_nil ha] at hf
    cases hf
    refine ⟨?_, rfl⟩
    simp only [advanceOver, ha]
  | cons l rest =>
    obtain ⟨notes, item⟩ := l
    cases item with
    | malformed fault =>
      rw [Parse.fetch_malformed ha] at hf
      cases hf
    | token u =>
      rw [Parse.fetch_token ha] at hf
      cases hf
      exact ⟨rfl, Event.readings_itemEvents _⟩

theorem advance_of_fetch_error {failure : Failure} {after : Reader}
    (hf : Parse.fetch s.reader = .error failure after) :
    ∃ later, Event.readings (s.advance : List (Event η) × Session σ).1 =
      .error (.reading failure) :: later := by
  unfold advance
  cases ha : s.reader.ahead with
  | nil =>
    rw [Parse.fetch_nil ha] at hf
    cases hf
  | cons l rest =>
    obtain ⟨notes, item⟩ := l
    cases item with
    | token u =>
      rw [Parse.fetch_token ha] at hf
      cases hf
    | malformed fault =>
      rw [Parse.fetch_malformed ha] at hf
      cases hf
      simp only [advanceOver, Event.readings_append, Event.readings_itemEvents, List.nil_append,
        Event.readings_error_reading]
      exact ⟨_, rfl⟩

/-- Where a session moves to among items that end once: the first token of them, past malformed
literals that it reports. -/
theorem advanceOver_eq {items : List Lexeme} (h : EndsOnce items) (s : Session σ) :
    ∃ front faults notes t rest, items = front ++ ⟨notes, .token t⟩ :: rest ∧
      front.map Lexeme.item = faults.map .malformed ∧
      (s.advanceOver items : List (Event η) × Session σ).2 =
        { s with
          reader := { s.reader with current := some t, ahead := rest }
          stats := s.stats.reportAll faults } := by
  induction items generalizing s with
  | nil => exact h.elim
  | cons l rest ih =>
    obtain ⟨notes, item⟩ := l
    cases item with
    | token t => exact ⟨[], [], notes, t, rest, rfl, rfl, rfl⟩
    | malformed fault =>
      have hrest : EndsOnce rest := h
      obtain ⟨front, faults, own, t, more, rfl, hfaults, hafter⟩ :=
        ih hrest { s with stats := s.stats.report (.reading (.malformed fault)) }
      refine ⟨⟨notes, .malformed fault⟩ :: front, fault :: faults, own, t, more, rfl, ?_, ?_⟩
      · rw [List.map_cons, List.map_cons, hfaults]
      · simp only [advanceOver]
        exact hafter

end Session

/-! ### What the engine says of a form -/

/-- What becomes of a form that is handed to an engine. -/
inductive Verdict where
  | accepted
  | value (x : Float)
  | rejected (diagnostic : Diagnostic)
  | fault (trap : Trap)

namespace Engine

variable {σ η : Type}

/-- What an engine makes of an accepted expression, and the store after it. -/
def outcome (engine : Engine σ η) (handle : η) (store : σ) : Verdict × σ :=
  match engine.execute handle store with
  | .ok x after => (.value x, after)
  | .error trap after =>
    match trap.diagnostic? with
    | some d => (.rejected d, after)
    | none => (.fault trap, after)

/-- What an engine makes of a form, and the store after it. An accepted expression is executed at
once. -/
def verdict (engine : Engine σ η) (kind : FormKind) (form : Form) (store : σ) : Verdict × σ :=
  match Session.submit engine form store with
  | .error rejection after => (.rejected rejection.diagnostic, after)
  | .ok lowered after =>
    match kind with
    | .expression => engine.outcome lowered.handle after
    | _ => (.accepted, after)

/-- The events of texts that an engine logs. -/
def logged (engine : Engine σ η) (texts : List String) : List (Event η) :=
  texts.map fun text => .log ⟨engine.logger, text⟩

/-- The events of a form before it is known what becomes of it: nothing if it is rejected at once,
or else its echo, and for an expression the trace of its execution. -/
def announcement (engine : Engine σ η) (kind : FormKind) (form : Form) (store : σ) :
    List (Event η) :=
  match Session.submit engine form store with
  | .error _ _ => []
  | .ok lowered after =>
    let echoed := engine.logged lowered.log ++ [.echo kind lowered.handle]
    match kind with
    | .expression => echoed ++ engine.logged (engine.trace after lowered.handle)
    | _ => echoed

theorem readings_logged (engine : Engine σ η) (texts : List String) :
    Event.readings (engine.logged texts) = [] := by
  apply Event.readings_eq_nil
  intro event hevent
  obtain ⟨text, _, rfl⟩ := List.mem_map.1 hevent
  rfl

theorem readings_announcement (engine : Engine σ η) (kind : FormKind) (form : Form) (store : σ) :
    Event.readings (engine.announcement kind form store) = [] := by
  unfold announcement
  cases Session.submit engine form store with
  | error rejection after => rfl
  | ok lowered after =>
    have hechoed : Event.readings
        (engine.logged lowered.log ++ [Event.echo kind lowered.handle]) = [] := by
      rw [Event.readings_append, readings_logged]
      rfl
    cases kind with
    | expression => simp only [Event.readings_append _ (engine.logged _), hechoed, readings_logged,
        List.append_nil]
    | _ => exact hechoed

end Engine

namespace Session

variable {σ η : Type}

/-- What a session does when it hears what became of a form. -/
def conclude (skip : Bool) (kind : FormKind) (s : Session σ) : Verdict → Turn σ η
  | .accepted => ⟨[], { s with stats := s.stats.accept kind }, none⟩
  | .value x => ⟨[.value x], { s with stats := s.stats.evaluate x }, none⟩
  | .rejected d =>
    let (events, after) := s.recover skip (.engine d)
    ⟨events, after, none⟩
  | .fault trap => ⟨[], s, some trap⟩

theorem evaluate_eq (engine : Engine σ η) (skip : Bool) (s : Session σ) (handle : η) :
    evaluate engine skip s handle =
      conclude skip .expression { s with store := (engine.outcome handle s.store).2 }
        (engine.outcome handle s.store).1 := by
  unfold evaluate Engine.outcome
  cases engine.execute handle s.store with
  | ok x after => rfl
  | error trap after =>
    dsimp only
    cases trap.diagnostic? with
    | none => rfl
    | some d => rfl

theorem accept_eq (engine : Engine σ η) (skip : Bool) (s : Session σ) (kind : FormKind)
    (form : Form) :
    let verdict := engine.verdict kind form s.store
    let turn : Turn σ η := conclude skip kind { s with store := verdict.2 } verdict.1
    accept engine skip s kind form =
      { turn with events := engine.announcement kind form s.store ++ turn.events } := by
  unfold accept Engine.verdict Engine.announcement
  cases submit engine form s.store with
  | error rejection after => rfl
  | ok lowered after =>
    cases kind with
    | definition => simp [conclude, Engine.logged]
    | external => simp [conclude, Engine.logged]
    | expression =>
      simp only [evaluate_eq]
      rfl

/-! ### One step -/

section Step

variable {engine : Engine σ η} {ops : OperatorTable} {depth : Nat} {skip : Bool} {s : Session σ}
  {t : Token} {kind : FormKind}

theorem handle_of_ok {form : Form} {after : Reader}
    (h : kind.read ops depth s.reader = .ok form after) :
    let turn := accept engine skip { s with reader := after } kind form
    handle engine ops depth skip s kind =
      { turn with
        events := (s.reader.consumed after).flatMap itemEvents ++ .form form :: turn.events } := by
  unfold handle read
  rw [h]

theorem handle_of_error {failure : Failure} {after : Reader}
    (h : kind.read ops depth s.reader = .error failure after) :
    let recovery : List (Event η) × Session σ :=
      recover { s with reader := after } true (.reading failure)
    handle engine ops depth skip s kind =
      ⟨(s.reader.consumed after).flatMap itemEvents ++ recovery.1, recovery.2, none⟩ := by
  unfold handle read
  rw [h]

theorem step_of_separator (hc : s.reader.current = some t) (ht : t.isSymbol ";" = true) :
    let passed : List (Event η) × Session σ := s.advance
    step engine ops depth skip s = ⟨passed.1, passed.2, none⟩ := by
  intro passed
  rw [step, token_of_some hc, Token.kind_of_isSymbol ht, if_pos ht]

theorem step_of_form (hc : s.reader.current = some t) (ht : t.isSymbol ";" = false) :
    step engine ops depth skip s = handle engine ops depth skip s (.ofToken t) := by
  rw [step, token_of_some hc, FormKind.ofToken]
  cases t.kind with
  | define => rfl
  | external => rfl
  | _ =>
    rw [ht]
    rfl

theorem step_cases (engine : Engine σ η) (ops : OperatorTable) (depth : Nat) (skip : Bool)
    (s : Session σ) :
    let passed : List (Event η) × Session σ := s.advance
    step engine ops depth skip s = ⟨passed.1, passed.2, none⟩ ∨
      ∃ kind, step engine ops depth skip s = handle engine ops depth skip s kind := by
  intro passed
  unfold step
  split
  · exact Or.inr ⟨_, rfl⟩
  · exact Or.inr ⟨_, rfl⟩
  · split
    · exact Or.inl rfl
    · exact Or.inr ⟨_, rfl⟩

theorem runFrom_of_end (h : s.reader.token.isEnd = true) (fuel : Nat) :
    runFrom engine ops depth skip (fuel + 1) s = ⟨[.farewell], s, none⟩ := by
  rw [runFrom, if_pos h]

theorem runFrom_of_fault (h : s.reader.token.isEnd = false) {trap : Trap}
    (hf : (step engine ops depth skip s).fault = some trap) (fuel : Nat) :
    runFrom engine ops depth skip (fuel + 1) s = step engine ops depth skip s := by
  rw [runFrom, h]
  simp only [Bool.false_eq_true, if_false, hf]

theorem runFrom_of_step (h : s.reader.token.isEnd = false)
    (hf : (step engine ops depth skip s).fault = none) (fuel : Nat) :
    let turn := step engine ops depth skip s
    let rest := runFrom engine ops depth skip fuel turn.session
    runFrom engine ops depth skip (fuel + 1) s =
      { rest with events := turn.events ++ .prompt :: rest.events } := by
  rw [runFrom, h]
  simp only [Bool.false_eq_true, if_false, hf]

end Step

end Session
end ScalarLang
