/-!
Doubles as exact numbers. Every finite double is a whole multiple of the least positive one, so its
magnitude is a natural number of *units* of `2 ^ -1074`; reading and writing decimals, rounding and
remainders are done on these numbers without error.
-/
namespace ScalarLang.Decimal

def twoTo (n : Nat) : Nat := Nat.pow 2 n

def tenTo (n : Nat) : Nat := Nat.pow 10 n

/-- One in units of the least positive double. -/
def unitsOfOne : Nat := twoTo 1074

inductive Double where
  | nan
  | infinite (negative : Bool)
  | finite (negative : Bool) (units : Nat)
deriving DecidableEq, Repr

/-- The bits of infinity, the first pattern after those of the finite magnitudes. -/
def infinityBits : Nat := 0x7FF * twoTo 52

/-- The magnitude of a finite double from its bits without the sign. -/
def unitsOfBits (bits : Nat) : Nat :=
  let fraction := bits % twoTo 52
  match bits / twoTo 52 with
  | 0 => fraction
  | exponent + 1 => (twoTo 52 + fraction) * twoTo exponent

/-- The exact number that a double stands for. -/
def Double.ofFloat (x : Float) : Double :=
  let word := x.toBits.toNat
  let negative := decide (twoTo 63 ≤ word)
  let bits := word % twoTo 63
  if bits < infinityBits then .finite negative (unitsOfBits bits)
  else if bits = infinityBits then .infinite negative
  else .nan

/-- The whole number nearest to `num / den`; a half goes to the even neighbour. -/
def roundHalfEven (num den : Nat) : Nat :=
  let below := num / den
  let twice := 2 * (num % den)
  if twice < den ∨ (twice = den ∧ below % 2 = 0) then below else below + 1

/-- The bits of the double nearest to `num / den` units, at most those of infinity. From `2 ^ 53`
units on, doubles are spaced by a power of two, the exponent field counts those powers, and a
significand that rounds up to the next power carries into that field. -/
def nearestBits (num den : Nat) : Nat :=
  let spacing := (num / den).log2 - 52
  min infinityBits (spacing * twoTo 52 + roundHalfEven num (den * twoTo spacing))

def floatOfBits (negative : Bool) (bits : Nat) : Float :=
  Float.ofBits (UInt64.ofNat (if negative then twoTo 63 + bits else bits))

/-- The double nearest to `num / den` units, with the given sign. -/
def nearest (negative : Bool) (num den : Nat) : Float :=
  floatOfBits negative (nearestBits num den)

def infinity : Float := floatOfBits false infinityBits

def notANumber : Float := Float.ofBits 0x7FF8000000000000

end ScalarLang.Decimal
