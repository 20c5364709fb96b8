import ScalarLang.Engine.Rejection

/-!
Why an accepted function does not yield a value.
-/
namespace ScalarLang

/-- Where the functions come from that have no body of their own. -/
inductive Outside where
  | natives
  | process
deriving DecidableEq, Repr

/-- How running a function fails. The last three are faults that no engine reports: a missing
argument, a fault that a native function raises itself, and compiled code that does not come back. -/
inductive Trap where
  | needsArguments (name : String) (arity : Int)
  | unresolved (name : String) (outside : Outside)
  | refused (name : String) (count : Nat)
  | depth
  | rejected (rejection : Rejection)
  | invalidLink (complaint : String)
  | noEntry (symbol : String)
  | missingArgument (index : Nat)
  | raised (what : String)
  | lost
deriving DecidableEq, Repr

namespace Trap

/-- How the failure is reported, unless it is a fault that ends the session. -/
def diagnostic? : Trap → Option Diagnostic
  | needsArguments name arity => some {
      message := s!"cannot execute '{name}': it takes {arity} argument(s)"
      location := none
      code := "B007" }
  | unresolved name outside => some {
      message := s!"unresolved external symbol '{name}'"
      location := none
      code := "B007"
      help := match outside with
        | .natives => "Externs bind to native math functions such as sin or sqrt."
        | .process => "Externs bind to functions loaded in the process, such as sin or sqrt." }
  | refused name count => some {
      message := s!"native function '{name}' cannot be called with {count} argument(s)"
      location := none
      code := "B007"
      help := s!"Declare it with the parameters '{name}' takes." }
  | depth => some {
      message := "maximum recursion depth exceeded"
      location := none
      code := "B007"
      help := "Check the function for a missing base case." }
  | rejected rejection => some rejection.diagnostic
  | invalidLink complaint => some {
      message := s!"linked module failed verification: {complaint}"
      location := none
      code := "B007" }
  | noEntry symbol => some {
      message := s!"JIT could not find symbol '{symbol}'"
      location := none
      code := "B007" }
  | missingArgument _ => none
  | raised _ => none
  | lost => none

/-- What a fault is called that ends the session. -/
def fault : Trap → String
  | raised what => what
  | lost => "compiled code did not return"
  | _ => "tuple index out of range"

end Trap
end ScalarLang
