import ScalarLang.IR.Module
import ScalarLang.Ledger
import ScalarLang.Math.Routine

/-!
The meaning of a module. Instructions run in order, each binding its result; calls go to the
procedures of the module, and from declarations to the routines of the process.
-/
namespace ScalarLang.IR

/-- What a name can hold. -/
inductive Value where
  | double (x : Float)
  | bit (b : Bool)
deriving Repr

/-- Whether `x` is below `y`, or one of them is not a number. -/
def lessOrUnordered (x y : Float) : Bool := decide (x < y) || x.isNaN || y.isNaN

def truth (b : Bool) : Float := if b then 1.0 else 0.0

/-- The values of the names of a procedure. -/
abbrev Registers := Ledger String Value

namespace Operand

def eval (registers : Registers) : Operand → Option Float
  | constant value => some value
  | register name =>
    match registers.get? name with
    | some (.double x) => some x
    | _ => none

end Operand

namespace Instruction

def eval (call : String → List Float → Option Float) (registers : Registers) :
    Instruction → Option Value
  | arithmetic _ op lhs rhs => do
    return .double (op.apply (← lhs.eval registers) (← rhs.eval registers))
  | compare _ lhs rhs => do
    return .bit (lessOrUnordered (← lhs.eval registers) (← rhs.eval registers))
  | widen _ bit =>
    match registers.get? bit with
    | some (.bit b) => some (.double (truth b))
    | _ => none
  | Instruction.call _ callee args => do
    return .double (← call callee (← args.mapM (Operand.eval registers)))

end Instruction

namespace Block

def runAll (call : String → List Float → Option Float) :
    List Instruction → Registers → Option Registers
  | [], registers => some registers
  | i :: rest, registers => do
    let value ← i.eval call registers
    runAll call rest ((i.result, value) :: registers)

def eval (call : String → List Float → Option Float) (block : Block) (registers : Registers) :
    Option Float := do
  block.result.eval (← runAll call block.instructions registers)

end Block

namespace Module

/-- Calls a procedure, with at most `depth` calls inside one another. There is no value if that is
not enough, or if the code is not well formed. -/
def call (m : Module) : Nat → String → List Float → Option Float
  | 0, _, _ => none
  | depth + 1, symbol, args =>
    match m.find? symbol with
    | some ⟨_, params, some block⟩ =>
      if params.length = args.length then
        block.eval (m.call depth) (params.zip (args.map .double))
      else none
    | _ =>
      match Routine.ofName? symbol with
      | some routine => routine.call args
      | none => none

/-- Runs a procedure without parameters. Every call is made whenever its procedure runs, so calls
that go deeper than there are procedures never end. -/
def run (m : Module) (symbol : String) : Option Float := m.call (m.procedures.length + 1) symbol []

end Module
end ScalarLang.IR
