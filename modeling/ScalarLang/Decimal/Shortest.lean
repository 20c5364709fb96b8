import ScalarLang.Decimal.Double

/-!
The shortest decimal of a double: the fewest digits that read back as the same double, and of
several such decimals the nearest.
-/
namespace ScalarLang.Decimal

/-- A decimal `0.d₁d₂…dₙ * 10 ^ point`, with `digits` the number `d₁d₂…dₙ`. -/
structure Digits where
  digits : Nat
  point : Int
deriving DecidableEq, Repr

def digitCount (n : Nat) : Nat := (Nat.toDigits 10 n).length

/-- The place of the decimal point of `num / den`: the least `p` with `num / den < 10 ^ p`. -/
def pointOf (num den : Nat) : Int :=
  if den ≤ num then digitCount (num / den) else 1 - digitCount ((den - 1) / num)

/-- `units * 10 ^ -place` as a fraction of units of one. -/
def scaledDown (units : Nat) (place : Int) : Nat × Nat :=
  match place with
  | .ofNat p => (units, unitsOfOne * tenTo p)
  | .negSucc p => (units * tenTo (p + 1), unitsOfOne)

/-- The double nearest to `digits * 10 ^ place`, as bits. -/
def bitsOfDecimal (digits : Nat) (place : Int) : Nat :=
  match place with
  | .ofNat p => nearestBits (digits * tenTo p * unitsOfOne) 1
  | .negSucc p => nearestBits (digits * unitsOfOne) (tenTo (p + 1))

/-- Of the two multiples of `10 ^ place` around a magnitude, the nearest one that reads back as the
same double; a tie goes to the even multiple. -/
def readsBack? (units : Nat) (place : Int) : Option Nat :=
  let (num, den) := scaledDown units place
  let below := num / den
  let same (digits : Nat) : Bool := bitsOfDecimal digits place == nearestBits units 1
  let closest := roundHalfEven num den
  let other := if closest = below then below + 1 else below
  if same closest then some closest else if same other then some other else none

def dropZeros : Nat → Nat → Nat
  | 0, n => n
  | fuel + 1, n => if n % 10 = 0 ∧ n ≠ 0 then dropZeros fuel (n / 10) else n

/-- The shortest decimal of a positive magnitude. Seventeen digits always read back. -/
def shortest (units : Nat) : Digits :=
  let point := pointOf units unitsOfOne
  let found := (List.range 17).findSome? fun (n : Nat) =>
    (readsBack? units (point - (n + 1))).map fun digits => (digits, point - (n + 1))
  match found with
  | some (digits, place) => ⟨dropZeros 17 digits, place + digitCount digits⟩
  | none => ⟨0, point⟩

end ScalarLang.Decimal
