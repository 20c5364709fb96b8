import ScalarLang.Decimal.Shortest

/-!
How numbers are written: in full with the shortest decimal, as a plain whole number where that is
exact, and with six places after the point.
-/
namespace ScalarLang.Decimal

def signText (negative : Bool) : String := if negative then "-" else ""

def zeros (count : Nat) : List Char := List.replicate count '0'

/-- Digits with the point written where it stands, and at least one digit on each side of it. -/
def positional (digits : List Char) (point : Int) : List Char :=
  if point ≤ 0 then '0' :: '.' :: zeros (-point).toNat ++ digits
  else if point.toNat < digits.length then
    digits.take point.toNat ++ '.' :: digits.drop point.toNat
  else digits ++ zeros (point.toNat - digits.length) ++ ['.', '0']

/-- A power of ten with its sign and at least two digits. -/
def exponentText (exponent : Int) : List Char :=
  let digits := Nat.toDigits 10 exponent.natAbs
  (if exponent < 0 then '-' else '+') :: zeros (2 - digits.length) ++ digits

/-- Digits with one of them before the point and a power of ten after them. -/
def scientific (digits : List Char) (point : Int) : List Char :=
  let mantissa := match digits with
    | first :: second :: rest => first :: '.' :: second :: rest
    | short => short
  mantissa ++ 'e' :: exponentText (point - 1)

/-- A positive magnitude: positional from `0.0001` to below `10 ^ 16`, scientific elsewhere. -/
def magnitudeText (units : Nat) : String :=
  let decimal := shortest units
  let digits := Nat.toDigits 10 decimal.digits
  String.ofList <|
    if -4 < decimal.point ∧ decimal.point ≤ 16 then positional digits decimal.point
    else scientific digits decimal.point

/-- The text of a number that reads back as the same number. -/
def full (x : Float) : String :=
  match Double.ofFloat x with
  | .nan => "nan"
  | .infinite negative => signText negative ++ "inf"
  | .finite negative 0 => signText negative ++ "0.0"
  | .finite negative units => signText negative ++ magnitudeText units

/-- The text of a number, a whole number below `10 ^ 16` without its point. -/
def plain (x : Float) : String :=
  match Double.ofFloat x with
  | .finite negative units =>
    let whole := units / unitsOfOne
    if units % unitsOfOne = 0 ∧ whole < tenTo 16 then
      signText (negative && whole != 0) ++ toString whole
    else full x
  | _ => full x

/-- The text of a number with six places; a half goes to the even neighbour. -/
def sixPlaces (x : Float) : String :=
  match Double.ofFloat x with
  | .nan => "nan"
  | .infinite negative => signText negative ++ "inf"
  | .finite negative units =>
    let millionths := roundHalfEven (units * tenTo 6) unitsOfOne
    let places := Nat.toDigits 10 (millionths % tenTo 6)
    signText negative ++ toString (millionths / tenTo 6) ++
      String.ofList ('.' :: zeros (6 - places.length) ++ places)

end ScalarLang.Decimal
