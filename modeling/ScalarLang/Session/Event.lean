import ScalarLang.Engine.Store
import ScalarLang.Parse.Form
import ScalarLang.Syntax.Printer

/-!
What happens in a session, and how it is shown. A session goes the same way whatever is shown of it:
prompts, echoes and log records are events like all others, and the presentation selects among them
when a transcript is written.
-/
namespace ScalarLang

inductive FormKind where
  | definition
  | external
  | expression
deriving DecidableEq, Repr

structure Record where
  logger : String
  text : String
deriving DecidableEq, Repr

/-- What a session reports: that something could not be read, or what the engine said of a form. -/
inductive Report where
  | reading (failure : Failure)
  | engine (diagnostic : Diagnostic)
deriving Repr

/-- Something that happens in a session over handles `η`. A form is handed to the engine as soon as
it is read. -/
inductive Event (η : Type) where
  | prompt
  | form (f : Form)
  | echo (kind : FormKind) (handle : η)
  | value (x : Float)
  | error (report : Report)
  | log (record : Record)
  | endOfInput
  | farewell
deriving Repr

/-- What a transcript shows: prompts if it is interactive, lowered forms if it echoes, and the log
if it is verbose. -/
structure Presentation where
  prompt : String := "ready> "
  interactive : Bool := false
  echo : Bool := true
  verbose : Bool := false
deriving DecidableEq, Repr

namespace FormKind

/-- The line above a lowered form. -/
def heading : FormKind → String
  | definition => "Read function definition:"
  | external => "Read extern:"
  | expression => "Read top-level expression:"

def read (ops : OperatorTable) (depth : Nat) : FormKind → Parse Form
  | definition => Form.function <$> Parse.definition ops depth
  | external => Form.external <$> Parse.external
  | expression => Form.function <$> Parse.bareExpression ops depth

end FormKind

def Report.diagnostic : Report → Diagnostic
  | reading failure => failure.diagnostic
  | engine diagnostic => diagnostic

namespace Record

def ofNote (note : Note) : Record := ⟨"kaleidoscope.lexer.lexer", note.text⟩

def ofForm : Form → Record
  | .external p => ⟨"kaleidoscope.parser.parser", s!"parsed extern {Text.quoted p.name}"⟩
  | .function f =>
    ⟨"kaleidoscope.parser.parser",
      if f.prototype.isAnonymous then "parsed top-level expression"
      else s!"parsed definition of {Text.quoted f.name}"⟩

/-- The log entry of a token that is skipped after an error. -/
def ofSkipped (t : Token) : Record :=
  ⟨"kaleidoscope.driver", s!"resynchronizing: skipping {t.label}"⟩

def line (r : Record) : String := s!"{r.logger}: DEBUG: {r.text}\n"

end Record

namespace Event

variable {η : Type}

def out (describe : η → String) (shown : Presentation) : Event η → String
  | echo kind handle =>
    if shown.echo then kind.heading ++ "\n" ++ describe handle ++ "\n" else ""
  | value x => "Evaluated to " ++ Decimal.sixPlaces x ++ "\n"
  | _ => ""

def err (shown : Presentation) : Event η → String
  | prompt => if shown.interactive then shown.prompt else ""
  | form f => if shown.verbose then (Record.ofForm f).line else ""
  | error report => report.diagnostic.line
  | log record => if shown.verbose then record.line else ""
  | farewell => if shown.interactive then "\n" else ""
  | _ => ""

def isEnd : Event η → Bool
  | endOfInput => true
  | _ => false

def outText (describe : η → String) (shown : Presentation) (events : List (Event η)) : String :=
  String.join (events.map (out describe shown))

def errText (shown : Presentation) (events : List (Event η)) : String :=
  String.join (events.map (err shown))

end Event
end ScalarLang
