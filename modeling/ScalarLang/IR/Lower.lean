import ScalarLang.Engine.Store
import ScalarLang.IR.Module
import ScalarLang.IR.Names

/-!
Lowering functions to modules. The procedure itself comes first; a callee is declared when its call
is met, before the arguments of that call are lowered.
-/
namespace ScalarLang.IR

/-- The symbol of the wrapper of a bare expression. -/
def anonymousSymbol : String := "__anon_expr"

def symbolOf (p : Prototype) : String := if p.isAnonymous then anonymousSymbol else p.name

/-- The names of parameters, made unique, and the names in use after them. Every parameter and the
result first hold a numbered empty name. -/
def paramNames (params : List String) : List String × Names :=
  let (_, names) := Names.start.pickAll (List.replicate (params.length + 1) "")
  names.pickAll params

def declaration (symbol : String) (p : Prototype) : Procedure :=
  ⟨symbol, (paramNames p.params).1, none⟩

def declarationModule (symbol : String) (p : Prototype) : Module := ⟨symbol, [declaration symbol p]⟩

/-- The state of lowering a function: the names in use, the instructions so far, and the functions
declared for them. -/
structure Builder where
  names : Names
  instructions : List Instruction
  declared : List Procedure

abbrev Build := StateT Builder (Except Rejection)

namespace Build

/-- Adds an instruction whose result is named after `base`, and returns that name. -/
def emit (base : String) (instruction : String → Instruction) : Build String := do
  let b ← get
  let (name, names) := b.names.pick base
  set { b with names, instructions := b.instructions ++ [instruction name] }
  return name

/-- Declares a function once; `own` is the function that is being lowered. -/
def declare (own symbol : String) (p : Prototype) : Build Unit :=
  modify fun b =>
    if symbol = own ∨ b.declared.any (·.symbol == symbol) then b
    else { b with declared := b.declared ++ [declaration symbol p] }

end Build

/-- What an expression is lowered in: the signatures, the symbol and the parameter names of the
procedure around it, and the place of its function. -/
structure Frame where
  signatures : Signatures
  symbol : String
  params : List String
  home : Option Location

/-- Lowers an expression to the operand that holds its value. -/
def lowerExpr (frame : Frame) : Nat → Expr → Build Operand
  | 0, _ => throw ⟨.nesting, frame.home⟩
  | _ + 1, .number value _ => pure (.constant value)
  | _ + 1, .var name location =>
    if name ∈ frame.params then pure (.register name)
    else throw ⟨.unknownVariable name, location⟩
  | depth + 1, .binary op lhs rhs location => do
    let lhs ← lowerExpr frame depth lhs
    let rhs ← lowerExpr frame depth rhs
    match Operation.ofSymbol? op with
    | none => throw ⟨.unknownOperator op, location⟩
    | some .less =>
      let bit ← Build.emit "cmptmp" fun name => .compare name lhs rhs
      .register <$> Build.emit "booltmp" fun name => .widen name bit
    | some (.arithmetic op) =>
      let base := match op with
        | .add => "addtmp"
        | .sub => "subtmp"
        | .mul => "multmp"
      .register <$> Build.emit base fun name => .arithmetic name op lhs rhs
  | depth + 1, .call callee args location => do
    let p ← frame.signatures.resolve callee args.length location
    Build.declare frame.symbol callee p
    let args ← args.mapM (lowerExpr frame depth)
    .register <$> Build.emit "calltmp" fun name => .call name callee args

def lower (depth : Nat) (signatures : Signatures) (f : Function) : Except Rejection Module := do
  let symbol := symbolOf f.prototype
  let (params, names) := paramNames f.prototype.params
  let (label, names) := names.pick "entry"
  let (result, b) ←
    (lowerExpr ⟨signatures, symbol, params, f.prototype.location⟩ depth f.body).run ⟨names, [], []⟩
  return ⟨symbol, ⟨symbol, params, some ⟨label, b.instructions, result⟩⟩ :: b.declared⟩

end ScalarLang.IR
