import ScalarLang.Decimal.Written
import ScalarLang.Text.Quoted

/-!
Settings: the loosely typed values that an operator table is configured with.
-/
namespace ScalarLang

inductive Setting where
  | none
  | flag (value : Bool)
  | whole (value : Int)
  | real (value : Float)
  | text (value : String)
deriving Repr, Inhabited

namespace Setting

def inspect : Setting → String
  | none => "None"
  | flag value => if value then "True" else "False"
  | whole value => toString value
  | real value => Decimal.full value
  | text value => Text.quoted value

/-- The number that a flag or a whole number counts as. -/
def wholeValue? : Setting → Option Int
  | flag value => some (if value then 1 else 0)
  | whole value => some value
  | _ => Option.none

/-- Whether two values are the same key: a flag is the same as its number. -/
def sameKey (a b : Setting) : Bool :=
  match a, b with
  | none, none => true
  | real x, real y => x == y
  | text s, text t => s == t
  | a, b =>
    match a.wholeValue?, b.wholeValue? with
    | some m, some n => m == n
    | _, _ => false

instance : BEq Setting := ⟨sameKey⟩

end Setting
end ScalarLang
