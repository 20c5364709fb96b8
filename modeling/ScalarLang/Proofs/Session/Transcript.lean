import ScalarLang.Proofs.Session.Tally

/-!
# Transcripts

Of all that happens in a session, a transcript without prompts and without the log shows three
things: echoes and values on the standard output, and errors on the error output. So it can be read
off the entries that the statistics count, and off the reports.
-/
namespace ScalarLang

/-- A transcript without prompts and without the log. -/
structure Presentation.Plain (shown : Presentation) : Prop where
  interactive : shown.interactive = false
  verbose : shown.verbose = false

theorem join_filter {α : Type} {p : α → Bool} {text : α → String}
    (htext : ∀ a, p a = false → text a = "") (items : List α) :
    String.join ((items.filter p).map text) = String.join (items.map text) := by
  induction items with
  | nil => rfl
  | cons a rest ih =>
    rw [List.map_cons, String.join_cons, ← ih]
    cases h : p a with
    | true => rw [List.filter_cons_of_pos h, List.map_cons, String.join_cons]
    | false =>
      have hneg : ¬ p a = true := by simp [h]
      rw [List.filter_cons_of_neg hneg, htext a h, String.empty_append]

/-! ### What is written -/

namespace Event

variable {η : Type}

/-- The event leaves something in a plain transcript. -/
def isWritten : Event η → Bool
  | echo _ _ => true
  | value _ => true
  | error _ => true
  | _ => false

def written (events : List (Event η)) : List (Event η) := events.filter isWritten

@[simp] theorem written_append (events more : List (Event η)) :
    written (events ++ more) = written events ++ written more := List.filter_append ..

@[simp] theorem written_prompt (events : List (Event η)) :
    written (.prompt :: events) = written events := rfl

theorem outText_written (describe : η → String) (shown : Presentation) (events : List (Event η)) :
    outText describe shown (written events) = outText describe shown events := by
  refine join_filter (fun event h => ?_) events
  cases event with
  | echo | value => cases h
  | _ => rfl

theorem errText_written {shown : Presentation} (h : shown.Plain) (events : List (Event η)) :
    errText shown (written events) = errText shown events := by
  refine join_filter (fun event hevent => ?_) events
  cases event with
  | error => cases hevent
  | prompt | farewell => simp [err, h.interactive]
  | form | log => simp [err, h.verbose]
  | _ => rfl

/-! ### Reports -/

def reports (events : List (Event η)) : List Report :=
  events.filterMap fun event =>
    match event with
    | error report => some report
    | _ => none

theorem errText_eq {shown : Presentation} (h : shown.Plain) (events : List (Event η)) :
    errText shown events =
      String.join ((reports events).map fun report => report.diagnostic.line) := by
  have hquiet : ∀ (event : Event η) (rest : List (Event η)), err shown event = "" →
      errText shown (event :: rest) = errText shown rest := by
    intro event rest hevent
    rw [errText, List.map_cons, String.join_cons, hevent, String.empty_append, errText]
  induction events with
  | nil => rfl
  | cons event rest ih =>
    cases event with
    | error report =>
      change String.join (report.diagnostic.line :: rest.map (err shown)) =
        String.join (report.diagnostic.line :: (reports rest).map _)
      rw [String.join_cons, String.join_cons, ← ih, errText]
    | prompt | farewell => exact (hquiet _ _ (by simp [err, h.interactive])).trans ih
    | form | log => exact (hquiet _ _ (by simp [err, h.verbose])).trans ih
    | _ => exact (hquiet _ _ rfl).trans ih

end Event

/-! ### What is counted -/

namespace Entry

def value? : Entry → Option Float
  | value x => some x
  | _ => none

def message? : Entry → Option String
  | error message => some message
  | _ => none

/-- The entry is the echo of a form of the kind. -/
def isEcho (kind : FormKind) : Entry → Bool
  | echo own _ => own == kind
  | _ => false

end Entry

def valueLine (x : Float) : String := "Evaluated to " ++ Decimal.sixPlaces x ++ "\n"

/-- What the entries of a session add up to. -/
theorem Stats.foldl_enter_fields (s : Stats) (entries : List Entry) :
    entries.foldl enter s = {
      definitions := s.definitions + entries.countP (Entry.isEcho .definition)
      externals := s.externals + entries.countP (Entry.isEcho .external)
      evaluations := s.evaluations + (entries.filterMap Entry.value?).length
      errors := s.errors + (entries.filterMap Entry.message?).length
      values := s.values ++ entries.filterMap Entry.value?
      messages := s.messages ++ entries.filterMap Entry.message? } := by
  induction entries generalizing s with
  | nil => simp
  | cons entry rest ih =>
    rw [List.foldl_cons, ih]
    cases entry with
    | echo kind text =>
      cases kind with
      | _ =>
        simp [enter, accept, Entry.isEcho, Entry.value?, Entry.message?, List.filterMap_cons,
          Nat.add_comm 1, Nat.add_assoc]
    | value x =>
      simp [enter, evaluate, Entry.isEcho, Entry.value?, Entry.message?, List.filterMap_cons,
        Nat.add_comm 1, Nat.add_assoc]
    | error message =>
      simp [enter, Entry.isEcho, Entry.value?, Entry.message?, List.filterMap_cons,
        Nat.add_comm 1, Nat.add_assoc]

theorem Event.messages_entries {η : Type} (describe : η → String) (events : List (Event η)) :
    (entries describe events).filterMap Entry.message? =
      (reports events).map fun report => report.diagnostic.message := by
  rw [entries, reports, List.filterMap_filterMap, List.map_filterMap]
  congr 1
  funext event
  cases event with
  | _ => rfl

/-- Without echoes, the values are all that is written. -/
theorem Entry.join_out_of_quiet {shown : Presentation} (h : shown.echo = false)
    (entries : List Entry) :
    String.join (entries.map (Entry.out shown)) =
      String.join ((entries.filterMap Entry.value?).map valueLine) := by
  induction entries with
  | nil => rfl
  | cons entry rest ih =>
    rw [List.map_cons, String.join_cons, ih]
    cases entry with
    | value x => exact String.join_cons.symm
    | echo kind text =>
      rw [Entry.out, h]
      exact String.empty_append
    | error message => exact String.empty_append

end ScalarLang
