import ScalarLang.Proofs.IR.Simulation

/-!
# Modules of functions

A function is lowered to a module of its own: a procedure whose block returns the value of the body,
and after it a declaration of everything that it calls.
-/
namespace ScalarLang.IR

variable {frame : Frame} {depth : Nat} {b after : Builder}

/-! ### Declarations of callees -/

/-- The callees have been declared, each once, unless one is the procedure itself. -/
structure Declares (own : String) (callees : List String) (before after : List Procedure) :
    Prop where
  kept : before ⊆ after
  new : ∀ p ∈ after, p ∈ before ∨ p.body = none ∧ p.symbol ≠ own ∧ p.symbol ∈ callees
  covered : ∀ name ∈ callees, name = own ∨ name ∈ after.map Procedure.symbol
  distinct : (before.map Procedure.symbol).Nodup → (after.map Procedure.symbol).Nodup

namespace Declares

variable {own : String} {callees others : List String} {before middle after : List Procedure}

theorem nil (before : List Procedure) : Declares own [] before before where
  kept := List.Subset.refl _
  new p hp := Or.inl hp
  covered name hname := by cases hname
  distinct h := h

theorem append (h : Declares own callees before middle) (h' : Declares own others middle after) :
    Declares own (callees ++ others) before after where
  kept p hp := h'.kept (h.kept hp)
  new p hp := by
    rcases h'.new p hp with hp | ⟨hbody, hown, hmem⟩
    · rcases h.new p hp with hp | ⟨hbody, hown, hmem⟩
      · exact Or.inl hp
      · exact Or.inr ⟨hbody, hown, List.mem_append_left _ hmem⟩
    · exact Or.inr ⟨hbody, hown, List.mem_append_right _ hmem⟩
  covered name hname := by
    rcases List.mem_append.1 hname with hname | hname
    · rcases h.covered name hname with hown | hmem
      · exact Or.inl hown
      · exact Or.inr (List.map_subset _ h'.kept hmem)
    · exact h'.covered name hname
  distinct hdistinct := h'.distinct (h.distinct hdistinct)

end Declares

theorem declares_declare (b : Builder) (own symbol : String) (p : Prototype) :
    Declares own [symbol] b.declared (b.declare own symbol p).declared := by
  unfold Builder.declare
  split
  · next hknown =>
    refine ⟨List.Subset.refl _, fun q hq => Or.inl hq, fun name hname => ?_, fun h => h⟩
    obtain rfl := List.mem_singleton.1 hname
    rcases hknown with rfl | hany
    · exact Or.inl rfl
    · obtain ⟨q, hq, hsymbol⟩ := List.any_eq_true.1 hany
      exact Or.inr (List.mem_map.2 ⟨q, hq, by simpa using hsymbol⟩)
  · next hnew =>
    obtain ⟨hown, hany⟩ := not_or.1 hnew
    refine ⟨List.subset_append_left _ _, fun q hq => ?_, fun name hname => ?_, fun h => ?_⟩
    · rcases List.mem_append.1 hq with hq | hq
      · exact Or.inl hq
      · obtain rfl := List.mem_singleton.1 hq
        exact Or.inr ⟨rfl, hown, List.mem_singleton.2 rfl⟩
    · obtain rfl := List.mem_singleton.1 hname
      simp [declaration]
    · have hfresh : symbol ∉ b.declared.map Procedure.symbol := by
        intro hmem
        obtain ⟨q, hq, hsymbol⟩ := List.mem_map.1 hmem
        exact hany (List.any_eq_true.2 ⟨q, hq, by simpa using hsymbol⟩)
      rw [List.map_append, List.nodup_append]
      refine ⟨h, by simp, ?_⟩
      rintro name hname other hother rfl
      obtain rfl : name = symbol := by simpa [declaration] using hother
      exact hfresh hname

theorem emitOperation_declared {lhs rhs operand : Operand} {operation : Operation}
    (h : emitOperation lhs rhs operation b = .ok (operand, after)) :
    after.declared = b.declared := by
  cases operation with
  | less =>
    cases h
    rfl
  | arithmetic op =>
    cases h
    rfl

theorem mapM_declares
    (hexpr : ∀ e b operand after, lowerExpr frame depth e b = .ok (operand, after) →
      Declares frame.symbol e.callees b.declared after.declared)
    {args : List Expr} {operands : List Operand}
    (h : args.mapM (lowerExpr frame depth) b = .ok (operands, after)) :
    Declares frame.symbol (Expr.calleesAll args) b.declared after.declared := by
  induction args generalizing b operands with
  | nil =>
    cases h
    exact .nil _
  | cons e rest ih =>
    obtain ⟨first, middle, others, hfirst, hothers, rfl⟩ := mapM_lowerExpr_cons_ok h
    exact (hexpr e b first middle hfirst).append (ih hothers)

theorem lowerExpr_declares {e : Expr} {operand : Operand}
    (h : lowerExpr frame depth e b = .ok (operand, after)) :
    Declares frame.symbol e.callees b.declared after.declared := by
  induction depth generalizing e b operand after with
  | zero =>
    rw [lowerExpr_zero] at h
    cases h
  | succ depth ih =>
    cases e with
    | number value location =>
      cases h
      exact .nil _
    | var name location =>
      obtain ⟨_, _, rfl⟩ := lowerExpr_var_ok h
      exact .nil _
    | binary op lhs rhs location =>
      obtain ⟨left, middle, right, last, operation, hl, hr, _, hemit⟩ := lowerExpr_binary_ok h
      rw [emitOperation_declared hemit]
      exact (ih hl).append (ih hr)
    | call callee args location =>
      obtain ⟨p, operands, middle, _, hargs, _, rfl⟩ := lowerExpr_call_ok h
      have hfirst := declares_declare b frame.symbol callee p
      have hall := mapM_declares (fun _ _ _ _ h => ih h) hargs
      exact hfirst.append hall

/-! ### Functions -/

/-- The procedure of a function: it returns the value of the body, and calls what that calls. -/
structure Implements (p : Procedure) (f : Function) : Prop where
  code : ∃ block, p = ⟨symbolOf f.prototype, f.prototype.params, some block⟩ ∧
    ∀ call args x, f.body.value call (binding f.prototype.params args) = some x →
      block.eval call (f.prototype.params.zip (args.map .double)) = some x
  calls : ∀ name, name ∈ p.callees ↔ name ∈ f.body.callees

theorem Implements.symbol {p : Procedure} {f : Function} (h : Implements p f) :
    p.symbol = symbolOf f.prototype := by
  obtain ⟨block, rfl, _⟩ := h.code
  rfl

theorem Implements.bodied {p : Procedure} {f : Function} (h : Implements p f) : p.body ≠ none := by
  obtain ⟨block, rfl, _⟩ := h.code
  simp

/-- The module that a function is lowered to. -/
structure Compiled (m : Module) (f : Function) : Prop where
  name : m.name = symbolOf f.prototype
  procedures : ∃ p declared, m.procedures = p :: declared ∧ Implements p f ∧
    Declares (symbolOf f.prototype) f.body.callees [] declared

theorem compiled_of_lower {signatures : Signatures} {f : Function} {m : Module}
    (hf : f.prototype.Regular) (h : lower depth signatures f = .ok m) : Compiled m f := by
  obtain ⟨names, hnames, hused⟩ := paramNames_eq hf.distinct hf.params
  simp only [lower, hnames, StateT.run] at h
  obtain ⟨⟨result, b⟩, hbody, h⟩ := bind_eq_ok.1 h
  cases h
  have hparams : ∀ param ∈ f.prototype.params, param ∈ (names.pick "entry").2.used := by
    intro param hparam
    rw [Names.used_pick]
    exact List.mem_cons_of_mem _ (hused param hparam)
  obtain ⟨new, hnew, _, hrun⟩ := lowerExpr_delivers hparams hbody
  have hinstructions : b.instructions = new := hnew.instructions
  refine ⟨rfl, _, _, rfl, ⟨⟨_, rfl, fun call args x hx => ?_⟩, ?_⟩, lowerExpr_declares hbody⟩
  · have hold := Registers.hold_zip hf.distinct args
    obtain ⟨final, hfinal, hresult⟩ := hrun call _ _ x hold hx
    simp only [Block.eval, hinstructions, hfinal.ends]
    exact hresult
  · simp only [Procedure.callees, hinstructions]
    exact hnew.calls

end ScalarLang.IR
