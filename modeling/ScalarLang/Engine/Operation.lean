/-!
The operations that engines can carry out.
-/
namespace ScalarLang

inductive Arithmetic where
  | add
  | sub
  | mul
deriving DecidableEq, Repr

inductive Operation where
  | arithmetic (op : Arithmetic)
  | less
deriving DecidableEq, Repr

namespace Arithmetic

def apply : Arithmetic → Float → Float → Float
  | add, x, y => x + y
  | sub, x, y => x - y
  | mul, x, y => x * y

end Arithmetic

namespace Operation

def ofSymbol? : String → Option Operation
  | "+" => some (.arithmetic .add)
  | "-" => some (.arithmetic .sub)
  | "*" => some (.arithmetic .mul)
  | "<" => some .less
  | _ => none

/-- The value of the operation. What is not a number is never at least as large as anything, so it
compares as less. -/
def apply : Operation → Float → Float → Float
  | arithmetic op, x, y => op.apply x y
  | less, x, y => if y ≤ x then 0.0 else 1.0

end Operation
end ScalarLang
