import ScalarLang.Command.Run
import ScalarLang.Proofs.Session.Replay

/-!
# The status of the command

The command ends with a status that tells whether its session has reported anything. The session
itself accounts for its statistics in its transcript, so the status, the counters and the texts that
are written agree.
-/
namespace ScalarLang

theorem errorLine_ne_empty (d : Diagnostic) : errorLine d ≠ "" := by
  unfold errorLine
  simp

/-- A plain transcript has nothing on the error output exactly if nothing has been reported. -/
theorem Event.errText_eq_empty_iff {η : Type} {shown : Presentation} (h : shown.Plain)
    (events : List (Event η)) : errText shown events = "" ↔ reports events = [] := by
  rw [errText_eq h]
  cases reports events with
  | nil => simp
  | cons report rest =>
    rw [List.map_cons, String.join_cons, Diagnostic.line_eq]
    simp [errorLine_ne_empty]

namespace Command

/-- The arguments ask for a session over a file that can be read to its end, and something can be
shown of it. -/
structure Opens (directory : Directory) (terminal : Bool) (args : List String) (o : Options)
    (choice : EngineChoice) (file : String) (bytes : List UInt8) (shown : Presentation) : Prop where
  parsed : parse args = .ok o
  engine : o.engine? = .ok choice
  named : o.file = some file
  readable : directory.read file = .ok bytes
  whole : (Input.ofBytes bytes).broken = false
  shown : o.presentation? terminal = .ok shown

def fileSession {σ η : Type} (engine : Engine σ η) (store : σ) (o : Options) (file : String)
    (bytes : List UInt8) : Turn σ η :=
  Session.run engine .standard Parse.depthLimit (!o.keepToken) store
    (lexemes file (Input.ofBytes bytes).text)

/-- What a session has reported, and the fault that escapes from it if there is one. -/
def aftermath (o : Options) (file : String) (bytes : List UInt8) :
    EngineChoice → List Report × Option Trap
  | .interpreter =>
    let engine := Interpreter.engine Native.standard Interpreter.depthLimit
    let turn := fileSession engine {} o file bytes
    (Event.reports turn.events, turn.fault)
  | .llvm =>
    let turn := fileSession (IR.engine IR.depthLimit) {} o file bytes
    (Event.reports turn.events, turn.fault)

/-- Unless a fault escapes, the status of a session tells whether it has reported something. -/
theorem sessionWith_status {σ η : Type} (engine : Engine σ η) (store : σ) {bytes : List UInt8}
    (hwhole : (Input.ofBytes bytes).broken = false) (shown : Presentation) (o : Options)
    (file : String) (hfault : (fileSession engine store o file bytes).fault = none) :
    let reports := Event.reports (fileSession engine store o file bytes).events
    let outcome := sessionWith engine store shown o.keepToken file (.ofBytes bytes)
    outcome.ending = .done (if reports = [] then 0 else 1) ∧
      (shown.Plain → (outcome.err = "" ↔ reports = [])) := by
  have hitems : (Input.ofBytes bytes).lexemes file = lexemes file (Input.ofBytes bytes).text := by
    rw [Input.lexemes, hwhole]
    rfl
  have hturn : sessionWith engine store shown o.keepToken file (.ofBytes bytes) =
      conclude engine shown false (fileSession engine store o file bytes) := by
    rw [sessionWith, hwhole, hitems, fileSession]
  have haccounted : (fileSession engine store o file bytes).Accounted engine store :=
    Session.run_accounted engine _ _ _ store file _
  generalize fileSession engine store o file bytes = turn at *
  -- The status looks at the counter of errors, which is the number of reports.
  have hstatus : turn.session.stats.errors = 0 ↔ Event.reports turn.events = [] := by
    rw [haccounted.errors, haccounted.messages, List.length_map, List.length_eq_zero_iff]
  intro reports outcome
  simp only [outcome, hturn, conclude, Bool.false_and, Bool.false_eq_true, if_false, hfault,
    hstatus]
  exact ⟨rfl, fun hplain => Event.errText_eq_empty_iff hplain turn.events⟩

theorem Opens.run_eq {directory : Directory} {terminal : Bool} {args : List String} {o : Options}
    {choice : EngineChoice} {file : String} {bytes : List UInt8} {shown : Presentation}
    (h : Opens directory terminal args o choice file bytes shown) (stdin : List UInt8) :
    run directory stdin terminal args = session choice o terminal file (.ofBytes bytes) := by
  simp only [run, h.parsed, h.engine, h.named, h.readable]

/-- How the command over a file that can be read ends, and when its error output is empty. -/
theorem Opens.run_status {directory : Directory} {terminal : Bool} {args : List String}
    {o : Options} {choice : EngineChoice} {file : String} {bytes : List UInt8}
    {shown : Presentation} (h : Opens directory terminal args o choice file bytes shown)
    (stdin : List UInt8) (hfault : (aftermath o file bytes choice).2 = none) :
    let reports := (aftermath o file bytes choice).1
    let outcome := run directory stdin terminal args
    outcome.ending = .done (if reports = [] then 0 else 1) ∧
      (shown.Plain → (outcome.err = "" ↔ reports = [])) := by
  intro reports outcome
  cases choice with
  | interpreter =>
    simp only [outcome, h.run_eq, session, h.shown]
    exact sessionWith_status _ _ h.whole shown o file hfault
  | llvm =>
    simp only [outcome, h.run_eq, session, h.shown]
    exact sessionWith_status _ _ h.whole shown o file hfault

end Command

/-- What sessions with the interpreter count is what their transcripts show, and the command over a
file that can be read has the status 1 if its session has reported an error, and else the status 0,
unless a fault escapes. Without prompts and without the log, the status is 1 exactly if something is
written on the error output. -/
theorem statistics_transcript_and_status_agree :
    (∀ (natives : Ledger String Native) (limit : Nat) (ops : OperatorTable) (depth : Nat)
      (skip : Bool) (store : Store Code) (file : String) (source : List Char),
      (Session.run (Interpreter.engine natives limit) ops depth skip store
        (lexemes file source)).Accounted (Interpreter.engine natives limit) store) ∧
    ∀ (directory : Command.Directory) (stdin : List UInt8) (terminal : Bool) (args : List String)
      (o : Command.Options) (choice : EngineChoice) (file : String) (bytes : List UInt8)
      (shown : Presentation),
      Command.Opens directory terminal args o choice file bytes shown →
      (Command.aftermath o file bytes choice).2 = none →
      let reports := (Command.aftermath o file bytes choice).1
      let outcome := Command.run directory stdin terminal args
      (outcome.ending = .done 1 ↔ reports ≠ []) ∧ (outcome.ending = .done 0 ↔ reports = []) ∧
        (shown.Plain → (outcome.ending = .done 1 ↔ outcome.err ≠ "")) := by
  refine ⟨fun natives limit => Session.run_accounted (Interpreter.engine natives limit), ?_⟩
  intro directory stdin terminal args o choice file bytes shown h hfault reports outcome
  obtain ⟨hending, herr⟩ := h.run_status stdin hfault
  have hstatus : outcome.ending = .done (if reports = [] then 0 else 1) := hending
  have hone : outcome.ending = .done 1 ↔ reports ≠ [] := by
    rw [hstatus]
    split <;> simp [*]
  have hzero : outcome.ending = .done 0 ↔ reports = [] := by
    rw [hstatus]
    split <;> simp [*]
  exact ⟨hone, hzero, fun hplain => hone.trans (not_congr (herr hplain)).symm⟩

section

open Command

/-- The bytes of a file with an open parenthesis and an unknown name. -/
def faultyBytes : List UInt8 := [40, 59, 121]

def faultyDirectory : Directory := [(["f"], .file faultyBytes)]

def quietOptions : Options := { file := some "f", echo := false }

theorem opens_faultyDirectory :
    Opens faultyDirectory false ["-q", "f"] quietOptions .interpreter "f" faultyBytes
      { echo := false } where
  parsed := by cbv
  engine := rfl
  named := rfl
  readable := by cbv
  whole := by cbv
  shown := rfl

set_option maxRecDepth 20000 in
theorem aftermath_faultyBytes :
    (aftermath quietOptions "f" faultyBytes .interpreter).2 = none ∧
    (aftermath quietOptions "f" faultyBytes .interpreter).1.length = 2 := by
  refine ⟨by cbv, by cbv⟩

/-- A file with a form that cannot be read and a form that is rejected. -/
theorem statistics_transcript_and_status_agree_faulty_file :
    let reports := (aftermath quietOptions "f" faultyBytes .interpreter).1
    let outcome := run faultyDirectory [] false ["-q", "f"]
    (Opens faultyDirectory false ["-q", "f"] quietOptions .interpreter "f" faultyBytes
        { echo := false } ∧
      (aftermath quietOptions "f" faultyBytes .interpreter).2 = none ∧ reports.length = 2 ∧
      Presentation.Plain { echo := false }) ∧
    (outcome.ending = .done 1 ↔ reports ≠ []) ∧ (outcome.ending = .done 0 ↔ reports = []) ∧
      (outcome.ending = .done 1 ↔ outcome.err ≠ "") := by
  intro reports outcome
  obtain ⟨hfault, hlength⟩ := aftermath_faultyBytes
  have hplain : Presentation.Plain { echo := false } := ⟨rfl, rfl⟩
  obtain ⟨hone, hzero, herr⟩ := statistics_transcript_and_status_agree.2 faultyDirectory [] false
    ["-q", "f"] quietOptions .interpreter "f" faultyBytes _ opens_faultyDirectory hfault
  exact ⟨⟨opens_faultyDirectory, hfault, hlength, hplain⟩, hone, hzero, herr hplain⟩

end
end ScalarLang
