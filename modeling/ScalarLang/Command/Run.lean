import ScalarLang.Command.Directory
import ScalarLang.Command.Usage
import ScalarLang.IR.Engine
import ScalarLang.Interpreter.Engine
import ScalarLang.Session.Run
import ScalarLang.Token.Input

/-!
The command: a session over a file or over the standard input, with what it writes and the status it
ends with.
-/
namespace ScalarLang.Command

/-- How the command ends: with a status after its work, with a status because of its arguments, or
because of a fault: in the session, in the text of the input, in the name of the file, or because a
switch that it needs is cleared. -/
inductive Ending where
  | done (status : Nat)
  | stopped (status : Nat)
  | fault (trap : Trap)
  | unreadable
  | nullByte
  | cleared (switch : Switch)
deriving DecidableEq, Repr

structure Outcome where
  ending : Ending
  out : String
  err : String
deriving DecidableEq, Repr

def Switch.absence : Switch → String
  | .backend => EngineChoice.unknown "[]"
  | .optLevel => "'<=' not supported between instances of 'int' and 'list'"
  | _ => "string argument expected, got 'list'"

namespace Options

/-- The engine to run, or the switch that it lacks. Only the code generator needs the optimization
level. -/
def engine? (o : Options) : Except Switch EngineChoice :=
  match o.engine.get? .interpreter, o.optLevel.get? 2 with
  | none, _ => .error .backend
  | some .llvm, none => .error .optLevel
  | some engine, _ => .ok engine

/-- What is shown of a session. There are prompts on a terminal, or if a prompt is given; with a
prompt that is cleared nothing can be shown. -/
def presentation? (o : Options) (terminal : Bool) : Except Switch Presentation :=
  match o.prompt with
  | .usual => .ok {
      interactive := o.file.isNone && terminal
      echo := o.echo
      verbose := o.verbose }
  | .given prompt => .ok { prompt, interactive := true, echo := o.echo, verbose := o.verbose }
  | .cleared => .error .prompt

end Options

/-- The outcome of a session. If the input breaks off, nothing counts from where its end is met. -/
def conclude {σ η : Type} (engine : Engine σ η) (shown : Presentation) (broken : Bool)
    (turn : Turn σ η) : Outcome :=
  let cut := broken && turn.events.any Event.isEnd
  let events := if cut then turn.events.takeWhile (!·.isEnd) else turn.events
  let ending :=
    if cut then .unreadable
    else
      match turn.fault with
      | some trap => .fault trap
      | none => .done (if turn.session.stats.errors = 0 then 0 else 1)
  ⟨ending, Event.outText engine.describe shown events, Event.errText shown events⟩

def sessionWith {σ η : Type} (engine : Engine σ η) (store : σ) (shown : Presentation)
    (keepToken : Bool) (file : String) (input : Input) : Outcome :=
  conclude engine shown input.broken <|
    Session.run engine .standard Parse.depthLimit (!keepToken) store (input.lexemes file)

def lacks (s : Switch) : Outcome := ⟨.cleared s, "", ""⟩

def session (choice : EngineChoice) (o : Options) (terminal : Bool) (file : String)
    (input : Input) : Outcome :=
  match o.presentation? terminal, choice with
  | .error s, _ => lacks s
  | .ok shown, .interpreter =>
    sessionWith (Interpreter.engine Native.standard Interpreter.depthLimit) {} shown o.keepToken
      file input
  | .ok shown, .llvm => sessionWith (IR.engine IR.depthLimit) {} shown o.keepToken file input

def stdinName : String := "<stdin>"

def cannotRead (file message : String) : Outcome :=
  ⟨.done 2, "", s!"Error: cannot read {file}: {message}\n"⟩

def ReadError.outcome (file : String) : ReadError → Outcome
  | nullByte => ⟨.nullByte, "", ""⟩
  | e => cannotRead file e.message

def Stop.outcome : Stop → Outcome
  | .help => ⟨.stopped 0, helpText, ""⟩
  | .usage message => ⟨.stopped 2, "", usageError message⟩

/-- Runs the command in a directory, with a standard input that may be a terminal. -/
def run (directory : Directory) (stdin : List UInt8) (terminal : Bool) (args : List String) :
    Outcome :=
  match parse args with
  | .error stop => stop.outcome
  | .ok o =>
    match o.engine?, o.file with
    | .error s, _ => lacks s
    | .ok choice, none => session choice o terminal stdinName (.ofBytes stdin)
    | .ok choice, some file =>
      match directory.read file with
      | .ok bytes => session choice o terminal file (.ofBytes bytes)
      | .error e => e.outcome file

end ScalarLang.Command
