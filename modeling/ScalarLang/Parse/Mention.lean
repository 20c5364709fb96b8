import ScalarLang.Parse.Expression
import ScalarLang.Syntax.Printer

/-!
Reading the use of a name at any token. Every token is taken for a name by what it means: a name and
a symbol by their text, which gives an expression. A number, a keyword and the end of the input have
no text. Such a token can be mentioned alone, and it cannot be called.
-/
namespace ScalarLang

/-- The use of a token as a name: an expression, or the bare meaning of a token that has no text. -/
inductive Mention where
  | expr (e : Expr)
  | bare (meaning : Meaning) (location : Option Location)
deriving Repr

namespace Mention

def inspect : Mention → String
  | expr e => e.inspect
  | bare meaning _ => "VariableExpr(name=" ++ meaning.inspect ++ ")"

/-- The use of a token, with the arguments of a call if there are any. -/
def ofToken (t : Token) (args : Option (List Expr)) : Except Failure Mention :=
  match t.kind.meaning, args with
  | .text name, _ => .ok (.expr (.reference name t.location args))
  | other, none => .ok (.bare other t.location)
  | other, some _ => .error (.notName other)

end Mention

/-- The use of the current token as a name. What the token means is looked at last. -/
def Parse.mention (expression : Parse Expr) : Parse Mention := do
  let start := (← get).current
  let args ← application expression
  let t ← known .meaning start
  match Mention.ofToken t args with
  | .ok found => pure found
  | .error failure => throw failure

end ScalarLang
