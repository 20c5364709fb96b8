import ScalarLang.Text.Blank
import ScalarLang.Text.Digit

/-!
Whole numbers as arguments: blanks around, a sign, and digits of any script with single underscores
between them.
-/
namespace ScalarLang.Command

/-- Whether a character may stand around a number: a blank other than the information separators. -/
def isPadding (c : Char) : Bool := Text.isBlank c && !(0x1C ≤ c.toNat && c.toNat ≤ 0x1F)

def unpadded (text : List Char) : List Char :=
  ((text.dropWhile isPadding).reverse.dropWhile isPadding).reverse

/-- The digits of a number; `joined` says whether an underscore may come next. -/
def digits? : Bool → List Char → Option (List Nat)
  | joined, [] => if joined then some [] else none
  | joined, c :: rest =>
    if c = '_' then if joined then digits? false rest else none
    else
      match Text.digitValue? c with
      | some d => (digits? true rest).map (d :: ·)
      | none => none

def maxDigits : Nat := 4300

def natural? (text : List Char) : Option Nat :=
  match digits? false text with
  | some digits =>
    if digits.length ≤ maxDigits then some (digits.foldl (fun n d => 10 * n + d) 0) else none
  | none => none

/-- The whole number that an argument spells. -/
def whole? (text : String) : Option Int :=
  match unpadded text.toList with
  | '-' :: rest => (natural? rest).map fun n => -(n : Int)
  | '+' :: rest => (natural? rest).map fun n => (n : Int)
  | rest => (natural? rest).map fun n => (n : Int)

end ScalarLang.Command
