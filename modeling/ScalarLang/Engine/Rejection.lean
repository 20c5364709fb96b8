import ScalarLang.Diagnostic

/-!
Why an engine does not accept a form.
-/
namespace ScalarLang

/-- The rule that a form breaks. -/
inductive Violation where
  | unknownVariable (name : String)
  | unknownFunction (name : String)
  | argumentCount (name : String) (expected found : Int)
  | redefinition (name : String)
  | conflict (name : String) (expected found : Int)
  | unknownOperator (op : String)
  | nesting
  | noScope
  | invalidCode (symbol complaint : String)
deriving DecidableEq, Repr

structure Rejection where
  violation : Violation
  location : Option Location
deriving DecidableEq, Repr

namespace Rejection

def diagnostic (r : Rejection) : Diagnostic :=
  match r.violation with
  | .unknownVariable name => {
      message := s!"unknown variable name '{name}'"
      location := r.location
      code := "B001"
      help := "Only the enclosing function's parameters are in scope." }
  | .unknownFunction name => {
      message := s!"unknown function referenced '{name}'"
      location := r.location
      code := "B002"
      suggestions :=
        [s!"Define it with 'def {name}(...)'", s!"Declare it with 'extern {name}(...)'"] }
  | .argumentCount name expected found => {
      message := s!"incorrect number of arguments passed to '{name}': " ++
        s!"expected {expected}, found {found}"
      location := r.location
      code := "B003" }
  | .redefinition name => {
      message := s!"redefinition of function '{name}'"
      location := r.location
      code := "B004"
      help := "A function body can only be defined once." }
  | .conflict name expected found => {
      message := s!"conflicting declaration of '{name}': previously declared with " ++
        s!"{expected} parameter(s), now {found}"
      location := r.location
      code := "B005" }
  | .unknownOperator op => {
      message := s!"invalid binary operator '{op}'"
      location := r.location
      code := "B006" }
  | .nesting => {
      message := "expression nested too deeply"
      location := r.location }
  | .noScope => {
      message := "expression lowered outside of a function"
      location := r.location }
  | .invalidCode symbol complaint => {
      message := s!"generated invalid IR for '{symbol}': {complaint}"
      location := r.location }

end Rejection
end ScalarLang
