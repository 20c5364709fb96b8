import ScalarLang.Operator.Table
import ScalarLang.Parse.Reader
import ScalarLang.Syntax.Expr

/-!
Reading expressions:

    expression ::= primary (operator primary)*
    primary    ::= number | name | name '(' (expression (',' expression)*)? ')' | '(' expression ')'

A chain of operands is grouped by precedence climbing. Every production that is entered inside
another takes one level of a depth budget, and reading fails when no level is left; the length of a
chain takes none.
-/
namespace ScalarLang.Parse

/-- A number. What the token means is looked at last. -/
def number : Parse Expr := do
  let t ← known .meaning (← get).current
  let _ ← fetch
  match t.kind.meaning with
  | .number value => pure (.number value t.location)
  | other => throw (.notNumber other)

/-- An expression in parentheses, from the opening one on. -/
def parenthesized (expression : Parse Expr) : Parse Expr := do
  let _ ← fetch
  let e ← expression
  require ")" .closingParen
  let _ ← fetch
  pure e

/-- The arguments of a call up to the closing parenthesis, of which `done` are read. -/
def arguments (expression : Parse Expr) : Nat → List Expr → Parse (List Expr)
  | 0, done => pure done
  | fuel + 1, done => do
    let arg ← expression
    let t ← current
    if t.isSymbol ")" then pure (done ++ [arg])
    else
      require "," .argumentEnd
      let _ ← fetch
      arguments expression fuel (done ++ [arg])

def argumentList (expression : Parse Expr) : Parse (List Expr) := do
  let first ← fetch
  if first.isSymbol ")" then pure [] else arguments expression (← rounds) []

/-- Passes a name, and reads the arguments of a call if there are any. -/
def application (expression : Parse Expr) : Parse (Option (List Expr)) := do
  let next ← fetch
  if next.isSymbol "(" then
    let args ← argumentList expression
    let _ ← fetch
    pure (some args)
  else pure none

/-- The right side of an operator of the given precedence, of which `operand` is read. An operator
that binds tighter takes that operand first. -/
def rightSide (ops : OperatorTable) (climb : Int → Expr → Parse Expr) (precedence : Int)
    (operand : Expr) : Parse Expr := do
  let next := ops.precedence (← current)
  if precedence < next then climb (precedence + 1) operand else pure operand

/-- Joins operands to the right of `lhs` while their operators have precedence `least` at least. -/
def chain (ops : OperatorTable) (primary : Parse Expr) (climb : Int → Expr → Parse Expr)
    (least : Int) : Nat → Expr → Parse Expr
  | 0, lhs => pure lhs
  | fuel + 1, lhs => do
    let op ← current
    let precedence := ops.precedence op
    if precedence < least then pure lhs
    else
      let _ ← fetch
      let rhs ← rightSide ops climb precedence (← primary)
      chain ops primary climb least fuel (.binary op.word lhs rhs op.location)

mutual

def expression (ops : OperatorTable) : Nat → Parse Expr
  | 0 => fail .lessNesting
  | depth + 1 => do
    let lhs ← primary ops depth
    climb ops depth 0 lhs

/-- The operands to the right of `lhs` whose operators have precedence `least` at least. -/
def climb (ops : OperatorTable) : Nat → Int → Expr → Parse Expr
  | 0, _, _ => fail .lessNesting
  | depth + 1, least, lhs => do
    chain ops (primary ops depth) (climb ops depth) least (← rounds) lhs

def primary (ops : OperatorTable) : Nat → Parse Expr
  | 0 => fail .lessNesting
  | depth + 1 => do
    let t ← current
    match t.kind with
    | .identifier name => do
      let args ← application (expression ops depth)
      pure (.reference name t.location args)
    | .number _ => number
    | _ => if t.isSymbol "(" then parenthesized (expression ops depth) else fail .operand

end

def depthLimit : Nat := 1000

end ScalarLang.Parse
