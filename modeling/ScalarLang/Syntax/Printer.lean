import ScalarLang.Syntax.Expr
import ScalarLang.Decimal.Written

/-!
Two ways to write a tree: with every operation in parentheses and its operator in front, and with
the name of every part.
-/
namespace ScalarLang

namespace Expr

mutual

/-- The expression with operators in front of their operands. -/
def print : Expr → String
  | number value _ => Decimal.plain value
  | var name _ => name
  | binary op lhs rhs _ => "(" ++ op ++ " " ++ print lhs ++ " " ++ print rhs ++ ")"
  | call callee args _ => "(" ++ callee ++ printArgs args ++ ")"

def printArgs : List Expr → String
  | [] => ""
  | arg :: rest => " " ++ print arg ++ printArgs rest

end

mutual

def inspect : Expr → String
  | number value _ => "NumberExpr(value=" ++ Decimal.full value ++ ")"
  | var name _ => "VariableExpr(name=" ++ Text.quoted name ++ ")"
  | binary op lhs rhs _ =>
    "BinaryExpr(op=" ++ Text.quoted op ++ ", lhs=" ++ inspect lhs ++ ", rhs=" ++ inspect rhs ++ ")"
  | call callee args _ =>
    "CallExpr(callee=" ++ Text.quoted callee ++ ", args=(" ++ ", ".intercalate (inspectAll args) ++
      (if args.length = 1 then ",))" else "))")

def inspectAll : List Expr → List String
  | [] => []
  | e :: rest => inspect e :: inspectAll rest

end

end Expr

namespace Prototype

def signature (p : Prototype) : String :=
  (if p.isAnonymous then "<anon>" else p.name) ++ " (" ++ " ".intercalate p.params ++ ")"

def print (p : Prototype) : String := "(extern " ++ p.signature ++ ")"

def inspect (p : Prototype) : String :=
  "Prototype(name=" ++ Text.quoted p.name ++ ", params=(" ++
    ", ".intercalate (p.params.map Text.quoted) ++ (if p.params.length = 1 then ",))" else "))")

end Prototype

namespace Function

def print (f : Function) : String := "(def " ++ f.prototype.signature ++ " " ++ f.body.print ++ ")"

def inspect (f : Function) : String :=
  "Function(prototype=" ++ f.prototype.inspect ++ ", body=" ++ f.body.inspect ++ ")"

end Function

namespace Form

def print : Form → String
  | function f => f.print
  | external p => p.print

def inspect : Form → String
  | function f => f.inspect
  | external p => p.inspect

end Form
end ScalarLang
