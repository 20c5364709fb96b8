import ScalarLang.Engine.Operation

/-!
Straight-line code over doubles in static single assignment form. A module holds procedures; one
without a body is a declaration.
-/
namespace ScalarLang.IR

inductive Operand where
  | constant (value : Float)
  | register (name : String)
deriving Repr, Inhabited

/-- An instruction. Each gives its result a name of its own. -/
inductive Instruction where
  | arithmetic (result : String) (op : Arithmetic) (lhs rhs : Operand)
  | compare (result : String) (lhs rhs : Operand)
  | widen (result : String) (bit : String)
  | call (result : String) (callee : String) (args : List Operand)
deriving Repr, Inhabited

/-- The code of a procedure: one labelled block that returns a value. -/
structure Block where
  label : String
  instructions : List Instruction
  result : Operand
deriving Repr, Inhabited

structure Procedure where
  symbol : String
  params : List String
  body : Option Block
deriving Repr, Inhabited

/-- A module: its procedures in order of first appearance. -/
structure Module where
  name : String
  procedures : List Procedure
deriving Repr, Inhabited

namespace Instruction

def result : Instruction → String
  | arithmetic result _ _ _ => result
  | compare result _ _ => result
  | widen result _ => result
  | call result _ _ => result

def callee? : Instruction → Option String
  | call _ callee _ => some callee
  | _ => none

end Instruction

namespace Procedure

def isDeclaration (p : Procedure) : Bool := p.body.isNone

/-- The procedures that are called, in order of the calls. -/
def callees (p : Procedure) : List String :=
  match p.body with
  | some block => block.instructions.filterMap Instruction.callee?
  | none => []

end Procedure

namespace Module

def find? (m : Module) (symbol : String) : Option Procedure :=
  m.procedures.find? fun p => p.symbol == symbol

end Module
end ScalarLang.IR
