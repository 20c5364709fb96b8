import ScalarLang.IR.Link
import ScalarLang.IR.Lower
import ScalarLang.IR.Printer
import ScalarLang.IR.Runtime

/-!
Code generation as an engine.
-/
namespace ScalarLang.IR

/-- Lowers a function to a module that the runtime has no complaint about. A complaint concerns the
whole module and is reported without a place. -/
def compile (runtime : Runtime) (depth : Nat) (signatures : Signatures) (f : Function) :
    Except Rejection Module := do
  let m ← lower depth signatures f
  match runtime.complaint? m with
  | none => return m
  | some complaint => throw ⟨.invalidCode m.name complaint, none⟩

/-- The module to run for a handle. A function that is only declared or named is called from a bare
expression, which is lowered first. -/
def runnable (runtime : Runtime) (depth : Nat) :
    Handle Module → EStateM Rejection (Store Module) Module
  | .defined definition => pure definition.body
  | handle =>
    (fun lowered => lowered.handle.body) <$>
      Store.define (compile runtime depth) ⟨⟨"", [], none⟩, .call handle.name [] none⟩

/-- Runs a module with the definitions that it reaches. Nothing runs unless the linked module passes
verification and every external symbol is resolved. -/
def launch (runtime : Runtime) (store : Store Module) (m : Module) : Except Trap Float :=
  let linked := m.link store.definitions
  match runtime.linkComplaint? linked, linked.unresolvedIn runtime.resolves with
  | some complaint, _ => .error (.invalidLink complaint)
  | none, some symbol => .error (.unresolved symbol .process)
  | none, none =>
    match runtime.start linked m.name with
    | .value x => .ok x
    | .noEntry => .error (.noEntry m.name)
    | .lost => .error .lost

def execute (runtime : Runtime) (depth : Nat) (handle : Handle Module) :
    EStateM Trap (Store Module) Float := fun store =>
  if handle.arity = 0 then
    match runnable runtime depth handle store with
    | .error rejection store => .error (.rejected rejection) store
    | .ok m store => (ofExcept (launch runtime store m) : EStateM Trap (Store Module) Float) store
  else .error (.needsArguments handle.name handle.arity) store

/-- What running a function logs, as far as it does not depend on where code is loaded. -/
def trace (runtime : Runtime) (depth : Nat) (store : Store Module) (handle : Handle Module) :
    List String :=
  if handle.arity = 0 then
    match runnable runtime depth handle store with
    | .error _ _ => []
    | .ok m store =>
      let reached := ", ".intercalate ((m.reached store.definitions).map Text.quoted)
      [s!"linked {m.name} with [{reached}]"]
  else []

def describe : Handle Module → String
  | .declared requested recorded => (declarationModule (symbolOf requested) recorded).text
  | .defined definition => definition.body.text
  | .plain name arity => Handle.describePlain name arity

/-- The code generator with the given depth budget, over a runtime. -/
def engine (depth : Nat) (runtime : Runtime := .standard) :
    Engine (Store Module) (Handle Module) where
  logger := "kaleidoscope.backend.llvm_backend"
  declare := Store.declare
  define := fun f => Lowered.map .defined <$> Store.define (compile runtime depth) f
  execute := execute runtime depth
  trace := trace runtime depth
  describe := describe

def depthLimit : Nat := 1000

end ScalarLang.IR
