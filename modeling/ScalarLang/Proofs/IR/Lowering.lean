import ScalarLang.Proofs.IR.Names
import ScalarLang.Proofs.Outcome

/-!
# The steps of lowering to instructions

Lowering an expression as a function of the builder it starts from, one equation for each kind of
expression.
-/
namespace ScalarLang.IR

variable {frame : Frame} {depth : Nat} {b : Builder}

/-- The builder once an instruction is added whose result is named after `base`. -/
def Builder.emit (b : Builder) (base : String) (instruction : String → Instruction) : Builder where
  names := (b.names.pick base).2
  instructions := b.instructions ++ [instruction (b.names.pick base).1]
  declared := b.declared

/-- The builder once a function is declared that is called in the procedure `own`. -/
def Builder.declare (b : Builder) (own symbol : String) (p : Prototype) : Builder :=
  if symbol = own ∨ b.declared.any (·.symbol == symbol) then b
  else { b with declared := b.declared ++ [declaration symbol p] }

@[simp] theorem Builder.declare_names (b : Builder) (own symbol : String) (p : Prototype) :
    (b.declare own symbol p).names = b.names := by
  unfold declare
  split
  · rfl
  · rfl

@[simp] theorem Builder.declare_instructions (b : Builder) (own symbol : String) (p : Prototype) :
    (b.declare own symbol p).instructions = b.instructions := by
  unfold declare
  split
  · rfl
  · rfl

/-- The name that the result of an operation is given, unless it is in use. -/
def arithmeticBase : Arithmetic → String
  | .add => "addtmp"
  | .sub => "subtmp"
  | .mul => "multmp"

def emitOperation (lhs rhs : Operand) : Operation → Build Operand
  | .less => do
    let bit ← Build.emit "cmptmp" fun name => .compare name lhs rhs
    .register <$> Build.emit "booltmp" fun name => .widen name bit
  | .arithmetic op =>
    .register <$> Build.emit (arithmeticBase op) fun name => .arithmetic name op lhs rhs

theorem emitOperation_arithmetic (lhs rhs : Operand) (op : Arithmetic) (b : Builder) :
    emitOperation lhs rhs (.arithmetic op) b =
      .ok (.register (b.names.pick (arithmeticBase op)).1,
        b.emit (arithmeticBase op) fun name => .arithmetic name op lhs rhs) := rfl

theorem emitOperation_less (lhs rhs : Operand) (b : Builder) :
    let compared := b.emit "cmptmp" fun name => .compare name lhs rhs
    emitOperation lhs rhs .less b =
      .ok (.register (compared.names.pick "booltmp").1,
        compared.emit "booltmp" fun name => .widen name (b.names.pick "cmptmp").1) := rfl

theorem emitOperation_eq (lhs rhs : Operand) (op : Operation) (b : Builder) :
    ∃ operand after, emitOperation lhs rhs op b = .ok (operand, after) := by
  cases op with
  | less => exact ⟨_, _, emitOperation_less lhs rhs b⟩
  | arithmetic op => exact ⟨_, _, emitOperation_arithmetic lhs rhs op b⟩

theorem lowerExpr_zero (e : Expr) : lowerExpr frame 0 e b = .error ⟨.nesting, frame.home⟩ := by
  cases e <;> rfl

theorem lowerExpr_number (value : Float) (location : Option Location) :
    lowerExpr frame (depth + 1) (.number value location) b = .ok (.constant value, b) := rfl

theorem lowerExpr_var (name : String) (location : Option Location) :
    lowerExpr frame (depth + 1) (.var name location) b =
      if name ∈ frame.params then .ok (.register name, b)
      else .error ⟨.unknownVariable name, location⟩ := by
  simp only [lowerExpr]
  split
  · rfl
  · rfl

theorem lowerExpr_binary (op : String) (lhs rhs : Expr) (location : Option Location) :
    lowerExpr frame (depth + 1) (.binary op lhs rhs location) b =
      (lowerExpr frame depth lhs b >>= fun left =>
        lowerExpr frame depth rhs left.2 >>= fun right =>
          match Operation.ofSymbol? op with
          | none => .error ⟨.unknownOperator op, location⟩
          | some operation => emitOperation left.1 right.1 operation right.2) := by
  simp only [lowerExpr]
  cases Operation.ofSymbol? op with
  | none => rfl
  | some operation =>
    cases operation with
    | less => rfl
    | arithmetic op =>
      cases op with
      | add => rfl
      | sub => rfl
      | mul => rfl

theorem lowerExpr_call (callee : String) (args : List Expr) (location : Option Location) :
    lowerExpr frame (depth + 1) (.call callee args location) b =
      (frame.signatures.resolve callee args.length location >>= fun p =>
        args.mapM (lowerExpr frame depth) (b.declare frame.symbol callee p) >>= fun done =>
          (Operand.register <$> Build.emit "calltmp" fun name => .call name callee done.1 :
            Build Operand) done.2) := by
  have hstep : lowerExpr frame (depth + 1) (.call callee args location) b =
      ((do
        let p ← frame.signatures.resolve callee args.length location
        Build.declare frame.symbol callee p
        let args ← args.mapM (lowerExpr frame depth)
        .register <$> Build.emit "calltmp" fun name => .call name callee args :
          Build Operand) b) := by
    simp only [lowerExpr]
  rw [hstep]
  cases frame.signatures.resolve callee args.length location with
  | error rejection => rfl
  | ok p => rfl

theorem mapM_lowerExpr_cons (e : Expr) (rest : List Expr) :
    (e :: rest).mapM (lowerExpr frame depth) b =
      (lowerExpr frame depth e b >>= fun first =>
        rest.mapM (lowerExpr frame depth) first.2 >>= fun others =>
          .ok (first.1 :: others.1, others.2)) := by
  rw [List.mapM_cons]
  rfl

/-! ### Lowering that succeeds -/

variable {operand : Operand} {after : Builder}

theorem lowerExpr_var_ok {name : String} {location : Option Location}
    (h : lowerExpr frame (depth + 1) (.var name location) b = .ok (operand, after)) :
    name ∈ frame.params ∧ operand = .register name ∧ after = b := by
  rw [lowerExpr_var] at h
  split at h
  · next hmem =>
    cases h
    exact ⟨hmem, rfl, rfl⟩
  · cases h

theorem lowerExpr_binary_ok {op : String} {lhs rhs : Expr} {location : Option Location}
    (h : lowerExpr frame (depth + 1) (.binary op lhs rhs location) b = .ok (operand, after)) :
    ∃ left middle right last operation, lowerExpr frame depth lhs b = .ok (left, middle) ∧
      lowerExpr frame depth rhs middle = .ok (right, last) ∧
      Operation.ofSymbol? op = some operation ∧
      emitOperation left right operation last = .ok (operand, after) := by
  rw [lowerExpr_binary] at h
  obtain ⟨⟨left, middle⟩, hleft, h⟩ := bind_eq_ok.1 h
  obtain ⟨⟨right, last⟩, hright, h⟩ := bind_eq_ok.1 h
  split at h
  · cases h
  · next operation hop => exact ⟨left, middle, right, last, operation, hleft, hright, hop, h⟩

theorem lowerExpr_call_ok {callee : String} {args : List Expr} {location : Option Location}
    (h : lowerExpr frame (depth + 1) (.call callee args location) b = .ok (operand, after)) :
    ∃ p operands middle, frame.signatures.resolve callee args.length location = .ok p ∧
      args.mapM (lowerExpr frame depth) (b.declare frame.symbol callee p) = .ok (operands, middle) ∧
      operand = .register (middle.names.pick "calltmp").1 ∧
      after = middle.emit "calltmp" fun name => .call name callee operands := by
  rw [lowerExpr_call] at h
  obtain ⟨p, hp, h⟩ := bind_eq_ok.1 h
  obtain ⟨⟨operands, middle⟩, hargs, h⟩ := bind_eq_ok.1 h
  cases h
  exact ⟨p, operands, middle, hp, hargs, rfl, rfl⟩

theorem mapM_lowerExpr_cons_ok {e : Expr} {rest : List Expr} {operands : List Operand}
    (h : (e :: rest).mapM (lowerExpr frame depth) b = .ok (operands, after)) :
    ∃ first middle others, lowerExpr frame depth e b = .ok (first, middle) ∧
      rest.mapM (lowerExpr frame depth) middle = .ok (others, after) ∧
      operands = first :: others := by
  rw [mapM_lowerExpr_cons] at h
  obtain ⟨⟨first, middle⟩, hfirst, h⟩ := bind_eq_ok.1 h
  obtain ⟨⟨others, last⟩, hothers, h⟩ := bind_eq_ok.1 h
  cases h
  exact ⟨first, middle, others, hfirst, hothers, rfl⟩

end ScalarLang.IR
