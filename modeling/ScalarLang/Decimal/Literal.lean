import ScalarLang.Decimal.Double

/-!
Decimal literals: digits with at most one point among them.
-/
namespace ScalarLang.Decimal

def digitsValue (digits : List Char) : Nat :=
  digits.foldl (fun n c => 10 * n + (c.toNat - '0'.toNat)) 0

/-- The double nearest to a literal; beyond the largest double it is infinity. -/
def literalValue (literal : List Char) : Float :=
  let whole := literal.takeWhile (· != '.')
  let places := (literal.dropWhile (· != '.')).drop 1
  nearest false (digitsValue (whole ++ places) * unitsOfOne) (tenTo places.length)

end ScalarLang.Decimal
