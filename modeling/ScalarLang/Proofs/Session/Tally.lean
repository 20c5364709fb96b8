import ScalarLang.Proofs.Session.Loops

/-!
# Statistics as a tally of events

Of all that happens in a session, only lowered forms, values and errors enter the statistics and the
standard output. Both are folds over these entries, so two sessions with the same entries have the
same statistics and the same output, and the entries of one session after another add up.
-/
namespace ScalarLang

/-- What an event leaves in the statistics and on the standard output. -/
inductive Entry where
  | echo (kind : FormKind) (text : String)
  | value (x : Float)
  | error (message : String)

/-- What an entry writes to the standard output. -/
def Entry.out (shown : Presentation) : Entry → String
  | echo kind text => if shown.echo then kind.heading ++ "\n" ++ text ++ "\n" else ""
  | value x => "Evaluated to " ++ Decimal.sixPlaces x ++ "\n"
  | error _ => ""

def Stats.enter (s : Stats) : Entry → Stats
  | .echo kind _ => s.accept kind
  | .value x => s.evaluate x
  | .error message => { s with errors := s.errors + 1, messages := s.messages ++ [message] }

/-- Counts one session after another. -/
def Stats.append (s t : Stats) : Stats where
  definitions := s.definitions + t.definitions
  externals := s.externals + t.externals
  evaluations := s.evaluations + t.evaluations
  errors := s.errors + t.errors
  values := s.values ++ t.values
  messages := s.messages ++ t.messages

namespace Event

variable {η : Type}

/-- The entry of an event, if it leaves one. -/
def asEntry (describe : η → String) : Event η → Option Entry
  | echo kind handle => some (.echo kind (describe handle))
  | value x => some (.value x)
  | error report => some (.error report.diagnostic.message)
  | _ => none

def entries (describe : η → String) (events : List (Event η)) : List Entry :=
  events.filterMap (asEntry describe)

variable (describe : η → String)

@[simp] theorem entries_nil : entries describe ([] : List (Event η)) = [] := rfl

@[simp] theorem entries_append (events more : List (Event η)) :
    entries describe (events ++ more) = entries describe events ++ entries describe more :=
  List.filterMap_append ..

@[simp] theorem entries_prompt (events : List (Event η)) :
    entries describe (.prompt :: events) = entries describe events := rfl

@[simp] theorem entries_form (f : Form) (events : List (Event η)) :
    entries describe (.form f :: events) = entries describe events := rfl

@[simp] theorem entries_log (record : Record) (events : List (Event η)) :
    entries describe (.log record :: events) = entries describe events := rfl

@[simp] theorem entries_farewell (events : List (Event η)) :
    entries describe (.farewell :: events) = entries describe events := rfl

@[simp] theorem entries_error (report : Report) (events : List (Event η)) :
    entries describe (.error report :: events) =
      .error report.diagnostic.message :: entries describe events := rfl

@[simp] theorem entries_itemEvents (l : Lexeme) :
    entries describe (Session.itemEvents l : List (Event η)) = [] := by
  have hnotes : entries describe (l.notes.map fun note => .log (.ofNote note)) = [] := by
    rw [entries, List.filterMap_map]
    exact List.filterMap_eq_nil_iff.2 fun _ _ => rfl
  unfold Session.itemEvents
  rw [entries_append, hnotes, List.nil_append]
  split <;> rfl

@[simp] theorem entries_consumed (items : List Lexeme) :
    entries describe (items.flatMap Session.itemEvents : List (Event η)) = [] := by
  induction items with
  | nil => rfl
  | cons l rest ih => rw [List.flatMap_cons, entries_append, entries_itemEvents, ih]; rfl

@[simp] theorem entries_logged {σ : Type} (engine : Engine σ η) (texts : List String) :
    entries describe (engine.logged texts) = [] := by
  rw [entries, Engine.logged, List.filterMap_map]
  exact List.filterMap_eq_nil_iff.2 fun _ _ => rfl

theorem outText_eq (shown : Presentation) (events : List (Event η)) :
    outText describe shown events =
      String.join ((entries describe events).map (Entry.out shown)) := by
  have hjoin : ∀ texts : List String, String.join ("" :: texts) = String.join texts := fun _ => rfl
  have hcons : ∀ (text : String) (texts : List String),
      String.join (text :: texts) = text ++ String.join texts := by
    intro text texts
    simp
  induction events with
  | nil => rfl
  | cons event rest ih =>
    have hrest : String.join (rest.map (out describe shown)) =
        String.join ((entries describe rest).map (Entry.out shown)) := ih
    rw [outText, List.map_cons, hcons, hrest]
    cases event with
    | echo kind handle => exact (hcons _ _).symm
    | value x => exact (hcons _ _).symm
    | error report => exact (hcons _ _).symm
    | _ => exact (hcons "" _).symm.trans (hjoin _)

end Event

/-! ### Statistics -/

namespace Stats

theorem enter_append (s t : Stats) (entry : Entry) :
    (s.append t).enter entry = s.append (t.enter entry) := by
  cases entry with
  | echo kind text =>
    cases kind with
    | expression => rfl
    | _ => simp only [enter, accept, append, Nat.add_assoc]
  | value x => simp only [enter, evaluate, append, Nat.add_assoc, List.append_assoc]
  | error message => simp only [enter, append, Nat.add_assoc, List.append_assoc]

theorem foldl_enter_append (s t : Stats) (entries : List Entry) :
    entries.foldl enter (s.append t) = s.append (entries.foldl enter t) := by
  induction entries generalizing t with
  | nil => rfl
  | cons entry rest ih => rw [List.foldl_cons, enter_append, ih, List.foldl_cons]

/-- What is counted after some statistics is added to them. -/
theorem foldl_enter_eq (s : Stats) (entries : List Entry) :
    entries.foldl enter s = s.append (entries.foldl enter {}) := by
  rw [← foldl_enter_append]
  simp [append]

end Stats

namespace Session

variable {σ η : Type} (engine : Engine σ η) (describe : η → String)

theorem advanceOver_tally (s : Session σ) (items : List Lexeme) :
    (s.advanceOver items : List (Event η) × Session σ).2.stats =
      (Event.entries describe (s.advanceOver items : List (Event η) × Session σ).1).foldl
        Stats.enter s.stats := by
  induction items generalizing s with
  | nil => rfl
  | cons l rest ih =>
    obtain ⟨notes, item⟩ := l
    cases item with
    | token t =>
      simp only [advanceOver, Event.entries_itemEvents]
      rfl
    | malformed fault =>
      simp only [advanceOver, Event.entries_append, Event.entries_itemEvents, List.nil_append,
        Event.entries_error, List.foldl_cons]
      exact ih _

theorem recover_tally (s : Session σ) (skip : Bool) (report : Report) :
    (s.recover skip report : List (Event η) × Session σ).2.stats =
      (Event.entries describe (s.recover skip report : List (Event η) × Session σ).1).foldl
        Stats.enter s.stats := by
  unfold recover
  cases skip with
  | false => rfl
  | true =>
    simp only [if_true, Event.entries_error, Event.entries_log, List.foldl_cons]
    exact advanceOver_tally describe _ _

theorem accept_tally (skip : Bool) (s : Session σ) (kind : FormKind) (form : Form) :
    (accept engine skip s kind form).session.stats =
      (Event.entries describe (accept engine skip s kind form).events).foldl
        Stats.enter s.stats := by
  rw [accept_eq]
  simp only [Engine.verdict, Engine.announcement]
  cases submit engine form s.store with
  | error rejection after => exact recover_tally describe { s with store := after } skip _
  | ok lowered after =>
    cases kind with
    | expression =>
      simp only [Event.entries_append, Event.entries_logged, List.nil_append, List.append_nil,
        List.foldl_append]
      cases houtcome : (engine.outcome lowered.handle after).1 with
      | rejected d => exact recover_tally describe _ skip (.engine d)
      | accepted => rfl
      | value x => rfl
      | fault trap => rfl
    | _ =>
      simp only [Event.entries_append, Event.entries_logged, List.nil_append, conclude]
      rfl

variable (ops : OperatorTable) (depth : Nat) (skip : Bool)

theorem handle_tally (s : Session σ) (kind : FormKind) :
    (handle engine ops depth skip s kind).session.stats =
      (Event.entries describe (handle engine ops depth skip s kind).events).foldl
        Stats.enter s.stats := by
  cases hread : kind.read ops depth s.reader with
  | error failure after =>
    rw [handle_of_error hread]
    simp only [Event.entries_append, Event.entries_consumed, List.nil_append]
    exact recover_tally describe { s with reader := after } true (.reading failure)
  | ok form after =>
    rw [handle_of_ok hread]
    simp only [Event.entries_append, Event.entries_consumed, List.nil_append, Event.entries_form]
    exact accept_tally engine describe skip { s with reader := after } kind form

theorem step_tally (s : Session σ) :
    (step engine ops depth skip s).session.stats =
      (Event.entries describe (step engine ops depth skip s).events).foldl
        Stats.enter s.stats := by
  rcases step_cases engine ops depth skip s with hstep | ⟨kind, hstep⟩
  · rw [hstep]
    exact advanceOver_tally describe s s.reader.ahead
  · rw [hstep]
    exact handle_tally engine describe ops depth skip s kind

theorem runFrom_tally (fuel : Nat) (s : Session σ) :
    (runFrom engine ops depth skip fuel s).session.stats =
      (Event.entries describe (runFrom engine ops depth skip fuel s).events).foldl
        Stats.enter s.stats := by
  induction fuel generalizing s with
  | zero => rfl
  | succ fuel ih =>
    have hstep := step_tally engine describe ops depth skip s
    cases hend : s.reader.token.isEnd with
    | true =>
      rw [runFrom_of_end hend]
      rfl
    | false =>
      cases hf : (step engine ops depth skip s).fault with
      | some trap =>
        rw [runFrom_of_fault hend hf]
        exact hstep
      | none =>
        rw [runFrom_of_step hend hf]
        simp only [Event.entries_append, Event.entries_prompt, List.foldl_append]
        rw [← hstep, ih]

/-- The statistics of a session count the entries of its events, each once. -/
theorem run_tally (store : σ) (items : List Lexeme) :
    (run engine ops depth skip store items).session.stats =
      (Event.entries describe (run engine ops depth skip store items).events).foldl
        Stats.enter {} := by
  let start : Session σ := { reader := .ofLexemes items, store }
  have hstart : (start.advance : List (Event η) × Session σ).2.stats =
      (Event.entries describe (start.advance : List (Event η) × Session σ).1).foldl
        Stats.enter {} :=
    advanceOver_tally describe start _
  rw [run_eq]
  simp only [List.cons_append, Event.entries_prompt, Event.entries_append, List.foldl_append]
  rw [runFrom_tally engine describe]
  exact congrArg (fun stats => List.foldl Stats.enter stats _) hstart

end Session
end ScalarLang
