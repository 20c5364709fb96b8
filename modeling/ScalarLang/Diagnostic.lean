import ScalarLang.Source.Location
import ScalarLang.Text.Upper

/-!
Diagnostics: a message with its severity, its place, and advice.
-/
namespace ScalarLang

/-- What is reported about a source. Empty help is no help. -/
structure Diagnostic where
  message : String
  location : Option Location
  severity : String := "error"
  code : Option String := none
  help : String := ""
  suggestions : List String := []
deriving DecidableEq, Repr, Inhabited

namespace Diagnostic

/-- The diagnostic in full, one line for each of its parts. -/
def text (d : Diagnostic) : String :=
  let heading := s!"{Text.upper d.severity}: {d.message}\n"
  let place := match d.location with
    | some location => s!"  --> {location.text}\n"
    | none => ""
  let help := if d.help.isEmpty then "" else s!"  help: {d.help}\n"
  let suggestions := match d.suggestions with
    | [] => ""
    | items => "  suggestions:\n" ++ String.join (items.map fun item => s!"    - {item}\n")
  heading ++ place ++ help ++ suggestions

def line (d : Diagnostic) : String :=
  match d.location with
  | some location => s!"Error: {d.message} ({location.text})\n"
  | none => s!"Error: {d.message}\n"

end Diagnostic
end ScalarLang
