import ScalarLang.Interpreter.Code
import ScalarLang.Syntax.Printer

/-!
The interpreter as an engine.
-/
namespace ScalarLang.Interpreter

def lower (depth : Nat) (signatures : Signatures) (f : Function) : Except Rejection Code :=
  Code.lower ⟨signatures, f.prototype.params, f.prototype.location⟩ depth f.body

def execute (natives : Ledger String Native) (depth : Nat) (store : Store Code)
    (handle : Handle Code) : Except Trap Float :=
  if handle.arity = 0 then
    match handle with
    | .defined definition => definition.body.run natives store.definitions depth []
    | handle => Code.run natives store.definitions (depth + 1) (.call handle.name []) []
  else .error (.needsArguments handle.name handle.arity)

def describe : Handle Code → String
  | .declared _ recorded => recorded.print
  | .defined definition => definition.function.print
  | .plain name arity => Handle.describePlain name arity

/-- The interpreter with the given native functions and depth budget. -/
def engine (natives : Ledger String Native) (depth : Nat) : Engine (Store Code) (Handle Code) where
  logger := "kaleidoscope.backend.interpreter"
  declare := Store.declare
  define := fun f => Lowered.map .defined <$> Store.define (lower depth) f
  execute := fun handle => do ofExcept (execute natives depth (← get) handle)
  trace := fun _ _ => []
  describe := describe

def depthLimit : Nat := 1000

end ScalarLang.Interpreter
