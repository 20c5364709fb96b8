import ScalarLang.Engine.Operation
import ScalarLang.Engine.Store
import ScalarLang.Math.Native

/-!
The code that the interpreter runs. Variables are resolved to argument positions once, when a
function is lowered; calls are bound by name each time they run, so that a declared function can get
its body later. Both lowering and running take one level of a depth budget for each expression
inside another, and running takes the levels of the caller into the callee.
-/
namespace ScalarLang

inductive Code where
  | number (value : Float)
  | argument (index : Nat)
  | operation (op : Operation) (lhs rhs : Code)
  | call (callee : String) (args : List Code)
deriving Repr, Inhabited

/-- What an expression is lowered in: the signatures, the parameters of the function around it, and
the place of that function. -/
structure Scope where
  signatures : Signatures
  params : List String
  home : Option Location

/-- The position of a name among parameters, the last one if it is repeated. -/
def lastIndex? : List String → String → Option Nat
  | [], _ => none
  | param :: rest, name =>
    match lastIndex? rest name with
    | some index => some (index + 1)
    | none => if param = name then some 0 else none

namespace Code

/-- Lowers an expression. A callee is checked before its arguments, an operator after its
operands. -/
def lower (scope : Scope) : Nat → Expr → Except Rejection Code
  | 0, _ => .error ⟨.nesting, scope.home⟩
  | _ + 1, .number value _ => .ok (.number value)
  | _ + 1, .var name location =>
    match lastIndex? scope.params name with
    | some index => .ok (.argument index)
    | none => .error ⟨.unknownVariable name, location⟩
  | depth + 1, .binary op lhs rhs location => do
    let lhs ← lower scope depth lhs
    let rhs ← lower scope depth rhs
    match Operation.ofSymbol? op with
    | some op => .ok (.operation op lhs rhs)
    | none => .error ⟨.unknownOperator op, location⟩
  | depth + 1, .call callee args location => do
    let _ ← scope.signatures.resolve callee args.length location
    let args ← args.mapM (lower scope depth)
    .ok (.call callee args)

/-- Calls a function without a body: the native function of its name. Outside its domain that gives
a value that is not a number, and out of range infinity. -/
def callNative (natives : Ledger String Native) (name : String) (args : List Float) :
    Except Trap Float :=
  match natives.get? name with
  | none => .error (.unresolved name .natives)
  | some native =>
    match native args with
    | .ok value => .ok value
    | .error .argumentCount => .error (.refused name args.length)
    | .error .domain => .ok Decimal.notANumber
    | .error .range => .ok Decimal.infinity
    | .error (.other what) => .error (.raised what)

/-- Runs code on the arguments of the function around it. -/
def run (natives : Ledger String Native) (definitions : Ledger String (Definition Code)) :
    Nat → Code → List Float → Except Trap Float
  | 0, _, _ => .error .depth
  | _ + 1, .number value, _ => .ok value
  | _ + 1, .argument index, args =>
    match args[index]? with
    | some value => .ok value
    | none => .error (.missingArgument index)
  | depth + 1, .operation op lhs rhs, args => do
    let x ← run natives definitions depth lhs args
    let y ← run natives definitions depth rhs args
    .ok (op.apply x y)
  | depth + 1, .call callee params, args => do
    let values ← params.mapM fun param => run natives definitions depth param args
    match definitions.get? callee with
    | some definition => run natives definitions depth definition.body values
    | none => callNative natives callee values

end Code
end ScalarLang
