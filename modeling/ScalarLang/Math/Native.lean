import ScalarLang.Ledger
import ScalarLang.Math.Routine

/-!
Native functions as the interpreter binds them. They check their arguments: a result that is not a
number although all arguments are is a fault, and so is a pole or a result that is too large.
Rounding to a whole number goes through an integer, which has neither a negative zero nor an
infinity. The logarithm takes a base.
-/
namespace ScalarLang

/-- Why a native function has no result: it does not take that many arguments, they are outside its
domain, the result is out of range, or something else that it says. -/
inductive NativeFault where
  | argumentCount
  | domain
  | range
  | other (what : String)
deriving DecidableEq, Repr

abbrev Native := List Float → Except NativeFault Float

namespace Native

/-- The routines that external functions are bound to. -/
def builtins : List Routine :=
  [.sin, .cos, .tan, .atan, .atan2, .exp, .log, .sqrt, .fabs, .pow, .floor, .ceil, .fmod]

/-- The fault of an infinite result of finite arguments. Only the exponential and the power grow out
of range, and zero has a pole under a negative power. -/
def infiniteFault : Routine → List Float → NativeFault
  | .exp, _ => .range
  | .pow, x :: _ => if x == 0.0 then .domain else .range
  | _, _ => .domain

/-- The result of a routine, checked against its arguments. -/
def checked (routine : Routine) (args : List Float) (value : Float) : Except NativeFault Float :=
  if value.isNaN && !args.any Float.isNaN then .error .domain
  else if value.isInf && args.all Float.isFinite then .error (infiniteFault routine args)
  else .ok value

/-- A whole number that is converted to an integer and back. -/
def throughInteger (x : Float) : Except NativeFault Float :=
  if x.isNaN then .error .domain else if x.isInf then .error .range else .ok (x + 0.0)

/-- The logarithm to a base; both are checked before the division. -/
def logBase (x base : Float) : Except NativeFault Float :=
  if x ≤ 0.0 ∨ base ≤ 0.0 then .error .domain
  else
    let divisor := Math.log base
    if divisor == 0.0 then .error (.other "float division by zero")
    else .ok (Math.log x / divisor)

def call : Routine → Native
  | .floor, [x] => throughInteger (Math.floor x)
  | .ceil, [x] => throughInteger (Math.ceil x)
  | .log, [x, base] => logBase x base
  | routine, args =>
    match routine.call args with
    | some value => checked routine args value
    | none => .error .argumentCount

def standard : Ledger String Native := builtins.map fun routine => (routine.name, call routine)

end Native
end ScalarLang
