import ScalarLang.IR.Evaluate

/-!
What generated code is handed to. A runtime checks modules, has symbols of its own, and compiles and
starts procedures; all of that is left open here.
-/
namespace ScalarLang.IR

/-- How starting a procedure ends. -/
inductive Run where
  | noEntry
  | value (x : Float)
  | lost
deriving Repr

/-- A runtime: its complaint about a module that was lowered, its complaint about a module that was
linked, the symbols that it has an address for, and what becomes of a procedure without parameters
that is compiled and started. -/
structure Runtime where
  complaint? : Module → Option String
  linkComplaint? : Module → Option String
  provides : String → Bool
  start : Module → String → Run

namespace Runtime

/-- A symbol that stands for an instruction and needs no address. -/
def isIntrinsic (symbol : String) : Bool := "llvm.".toList.isPrefixOf symbol.toList

/-- Whether a declaration of the symbol can stay without a body. -/
def resolves (runtime : Runtime) (symbol : String) : Bool :=
  isIntrinsic symbol || runtime.provides symbol

/-- The runtime that takes modules as they are, provides the mathematical routines, and runs code as
it is written. -/
def standard : Runtime where
  complaint? _ := none
  linkComplaint? _ := none
  provides symbol := (Routine.ofName? symbol).isSome
  start m symbol :=
    match m.run symbol with
    | some x => .value x
    | none => .lost

end Runtime
end ScalarLang.IR
