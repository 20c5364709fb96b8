import ScalarLang.Decimal.Double

/-!
Mathematical routines on doubles with the results that floating-point arithmetic recommends: a pole
is an infinity, an invalid argument gives a value that is not a number, and the sign of zero is
kept.
-/
namespace ScalarLang

/-- A routine that external functions can be bound to. -/
inductive Routine where
  | sin
  | cos
  | tan
  | atan
  | atan2
  | exp
  | log
  | sqrt
  | fabs
  | pow
  | floor
  | ceil
  | fmod
  | trunc
  | round
  | fmax
  | fmin
deriving DecidableEq, Repr

namespace Routine

def all : List Routine :=
  [sin, cos, tan, atan, atan2, exp, log, sqrt, fabs, pow, floor, ceil, fmod, trunc, round, fmax,
   fmin]

def name : Routine → String
  | sin => "sin"
  | cos => "cos"
  | tan => "tan"
  | atan => "atan"
  | atan2 => "atan2"
  | exp => "exp"
  | log => "log"
  | sqrt => "sqrt"
  | fabs => "fabs"
  | pow => "pow"
  | floor => "floor"
  | ceil => "ceil"
  | fmod => "fmod"
  | trunc => "trunc"
  | round => "round"
  | fmax => "fmax"
  | fmin => "fmin"

def ofName? (text : String) : Option Routine := all.find? fun routine => routine.name == text

end Routine

namespace Math

/-- The natural logarithm: negative infinity at zero, no number below, and exact at one. -/
def log (x : Float) : Float :=
  if x == 0.0 then -Decimal.infinity
  else if x < 0.0 then Decimal.notANumber
  else if x == 1.0 then 0.0
  else Float.log x

/-- The remainder of the division towards zero, with the sign of `x`. Both magnitudes are whole
numbers of the same unit, so it is exact. -/
def fmod (x y : Float) : Float :=
  match Decimal.Double.ofFloat x, Decimal.Double.ofFloat y with
  | .finite negative units, .finite _ divisor =>
    if divisor = 0 then Decimal.notANumber else Decimal.nearest negative (units % divisor) 1
  | .finite _ _, .infinite _ => x
  | _, _ => Decimal.notANumber

/-- A finite value rounded to a whole number with the same sign; `rounding` gets the sign and the
magnitude in units. All other values stay as they are. -/
def toWhole (rounding : Bool → Nat → Nat) (x : Float) : Float :=
  match Decimal.Double.ofFloat x with
  | .finite negative units =>
    Decimal.nearest negative (rounding negative units * Decimal.unitsOfOne) 1
  | _ => x

def wholePart (units : Nat) : Nat := units / Decimal.unitsOfOne

def wholeAbove (units : Nat) : Nat := wholePart (units + (Decimal.unitsOfOne - 1))

def floor : Float → Float :=
  toWhole fun negative units => if negative then wholeAbove units else wholePart units

def ceil : Float → Float :=
  toWhole fun negative units => if negative then wholePart units else wholeAbove units

def trunc : Float → Float := toWhole fun _ units => wholePart units

/-- The nearest whole number; a half goes away from zero. -/
def round : Float → Float :=
  toWhole fun _ units => (2 * units + Decimal.unitsOfOne) / (2 * Decimal.unitsOfOne)

/-- Whether the sign of a value is negative; a zero has a sign too. -/
def hasMinus (x : Float) : Bool := decide (Decimal.twoTo 63 ≤ x.toBits.toNat)

/-- Whether `x` comes before `y`: it is less, or it is the negative of two zeros. -/
def precedes (x y : Float) : Bool := decide (x < y) || (x == y && hasMinus x && !hasMinus y)

/-- The greater of two values; a value that is not a number does not count. -/
def fmax (x y : Float) : Float :=
  if x.isNaN then y else if y.isNaN then x else if precedes x y then y else x

/-- The smaller of two values; a value that is not a number does not count. -/
def fmin (x y : Float) : Float :=
  if x.isNaN then y else if y.isNaN then x else if precedes y x then y else x

end Math

namespace Routine

/-- The result of a routine, if it takes that many arguments. -/
def call : Routine → List Float → Option Float
  | sin, [x] => some x.sin
  | cos, [x] => some x.cos
  | tan, [x] => some x.tan
  | atan, [x] => some x.atan
  | atan2, [y, x] => some (y.atan2 x)
  | exp, [x] => some x.exp
  | log, [x] => some (Math.log x)
  | sqrt, [x] => some x.sqrt
  | fabs, [x] => some x.abs
  | pow, [x, y] => some (x.pow y)
  | floor, [x] => some (Math.floor x)
  | ceil, [x] => some (Math.ceil x)
  | fmod, [x, y] => some (Math.fmod x y)
  | trunc, [x] => some (Math.trunc x)
  | round, [x] => some (Math.round x)
  | fmax, [x, y] => some (Math.fmax x y)
  | fmin, [x, y] => some (Math.fmin x y)
  | _, _ => none

end Routine
end ScalarLang
