import ScalarLang.Ledger
import ScalarLang.Operator.Setting
import ScalarLang.Token.Basic

/-!
Operator tables: which symbols are binary operators and how tightly each binds. All operators
associate to the left. A table can be extended until it is frozen.
-/
namespace ScalarLang

/-- The operators with their precedences, in order of installation. -/
structure OperatorTable where
  entries : Ledger Char Nat := []
  frozen : Bool := false
deriving DecidableEq, Repr, Inhabited

inductive InstallError where
  | frozen
  | symbol (given : Setting)
  | precedence (given : Setting)
deriving Repr

namespace InstallError

def message : InstallError → String
  | frozen => "operator table is frozen"
  | symbol given => s!"invalid binary operator symbol: {given.inspect}"
  | precedence given => s!"precedence must be a positive integer, got {given.inspect}"

end InstallError

namespace OperatorTable

/-- The characters that the grammar uses for itself. -/
def reserved : List Char := ['(', ')', ',', ';', '#', '.']

/-- Whether a character can be an operator: visible ASCII, and neither a letter, a digit nor
reserved. -/
def isOperator (c : Char) : Bool :=
  32 < c.toNat && c.toNat < 127 && !c.isAlphanum && !reserved.contains c

/-- The character that a setting names, if it can be an operator. -/
def operator? : Setting → Option Char
  | .text text =>
    match text.toList with
    | [c] => if isOperator c then some c else none
    | _ => none
  | _ => none

/-- The precedence that a setting names, a positive whole number. -/
def precedence? : Setting → Option Nat
  | .whole value => if 0 < value then some value.toNat else none
  | _ => none

def install (table : OperatorTable) (symbol precedence : Setting) :
    Except InstallError OperatorTable :=
  if table.frozen then .error .frozen
  else
    match operator? symbol with
    | none => .error (.symbol symbol)
    | some c =>
      match precedence? precedence with
      | none => .error (.precedence precedence)
      | some p => .ok { table with entries := table.entries.put c p }

def freeze (table : OperatorTable) : OperatorTable := { table with frozen := true }

/-- The table of a configuration. Where it names a symbol twice, the last precedence counts and
the first place. -/
def ofSettings (settings : List (Setting × Setting)) : Except InstallError OperatorTable :=
  let distinct : Ledger Setting Setting :=
    settings.foldl (fun ledger (symbol, precedence) => ledger.put symbol precedence) []
  distinct.foldlM (fun table (symbol, precedence) => table.install symbol precedence) {}

def standard : OperatorTable := { entries := [('<', 10), ('+', 20), ('-', 20), ('*', 40)] }

/-- The precedence of a text as an operator; `-1` if it is none. -/
def precedenceOf (table : OperatorTable) (text : String) : Int :=
  match text.toList with
  | [c] =>
    match table.entries.get? c with
    | some p => p
    | none => -1
  | _ => -1

def precedence (table : OperatorTable) (t : Token) : Int :=
  match t.kind with
  | .symbol text => table.precedenceOf text
  | _ => -1

def has (table : OperatorTable) : Setting → Bool
  | .text text =>
    match text.toList with
    | [c] => table.entries.has c
    | _ => false
  | _ => false

def inspect (table : OperatorTable) : String :=
  let entry (e : Char × Nat) := Text.quoted (String.singleton e.1) ++ s!": {e.2}"
  "OperatorTable(\x7b" ++ ", ".intercalate (table.entries.map entry) ++ "\x7d, frozen=" ++
    (Setting.flag table.frozen).inspect ++ ")"

end OperatorTable
end ScalarLang
