import ScalarLang.Command.Run

/-!
The command line program. On a terminal a session is carried on line by line: what it writes up to
the point where it would read on is written before the next line is read.
-/
namespace ScalarLang.Command

/-- Writes what an outcome adds to what has been written, and returns what has been written. -/
def writeNew (outcome : Outcome) (written : String × String) : IO (String × String) := do
  let out ← IO.getStdout
  let err ← IO.getStderr
  err.putStr (String.ofList (outcome.err.toList.drop written.2.length))
  err.flush
  out.putStr (String.ofList (outcome.out.toList.drop written.1.length))
  out.flush
  return (outcome.out, outcome.err)

def Ending.status : Ending → UInt32
  | .done status => status.toUInt32
  | .stopped status => status.toUInt32
  | _ => 1

def finish (ending : Ending) : IO UInt32 := do
  match ending with
  | .fault trap => IO.eprintln trap.fault
  | .unreadable => IO.eprintln "the input is not valid UTF-8"
  | .nullByte => IO.eprintln ReadError.nullByte.message
  | .cleared s => IO.eprintln s.absence
  | _ => pure ()
  return ending.status

/-- Carries on a session line by line. -/
partial def converse (choice : EngineChoice) (o : Options) (text : String)
    (written : String × String) : IO UInt32 := do
  let soFar := session choice o true stdinName ⟨unifyLines text.toList, true⟩
  let written ← writeNew soFar written
  match soFar.ending with
  | .unreadable =>
    let line ← (← IO.getStdin).getLine
    if line.isEmpty then
      let whole := session choice o true stdinName (.ofText (unifyLines text.toList))
      let _ ← writeNew whole written
      finish whole.ending
    else converse choice o (text ++ line) written
  | ending => finish ending

partial def readAll (stream : IO.FS.Stream) (bytes : ByteArray) : IO ByteArray := do
  let more ← stream.read 65536
  if more.isEmpty then return bytes else readAll stream (bytes ++ more)

/-- The words for the number of a file error, or else the given ones. The number may be negative and
wrapped around. -/
def errorWords (number : UInt32) (details : String) : String :=
  let number := min number.toNat (0 - number).toNat
  match ReadError.all.find? fun e => e.number? == some number with
  | some e => e.message
  | none => details

def errorText : IO.Error → String
  | .noFileOrDirectory _ number details => errorWords number details
  | .inappropriateType _ number details => errorWords number details
  | .invalidArgument _ number details => errorWords number details
  | .permissionDenied _ number details => errorWords number details
  | e => toString e

def readFile (file : String) : IO (Except String ByteArray) := do
  try
    let bytes ← IO.FS.readBinFile file
    return .ok bytes
  catch e => return .error (errorText e)

def report (outcome : Outcome) : IO UInt32 := do
  let _ ← writeNew outcome ("", "")
  finish outcome.ending

end ScalarLang.Command

open ScalarLang.Command in
def main (args : List String) : IO UInt32 := do
  match parse args with
  | .error stop => report stop.outcome
  | .ok o =>
    let stdin ← IO.getStdin
    let terminal ← stdin.isTty
    match o.engine?, o.file with
    | .error s, _ => report (lacks s)
    | .ok choice, none =>
      if terminal then converse choice o "" ("", "")
      else
        let bytes ← readAll stdin ByteArray.empty
        report (session choice o terminal stdinName (.ofBytes bytes.toList))
    | .ok choice, some file =>
      match ← readFile file with
      | .ok bytes => report (session choice o terminal file (.ofBytes bytes.toList))
      | .error message => report (cannotRead file message)
