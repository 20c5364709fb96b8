import ScalarLang.Proofs.Engine.History
import ScalarLang.Proofs.IR.Lowering
import ScalarLang.Proofs.Interpreter.Binding
import ScalarLang.Proofs.Parse.Rows

/-!
# Agreement of the engines

The two engines lower by different means: the interpreter resolves variables to positions and builds
code, code generation resolves them to the names of parameters and builds instructions under fresh
names. On forms as they are read they still accept and reject alike, with the same rejection, and
keep the same signatures and the same functions. Each engine has a depth budget of its own; nothing
is said where one of them is exhausted.
-/
namespace ScalarLang

/-! ### Results of lowering -/

/-- Two results of lowering agree: both are accepted, both are rejected alike, or one of them went
deeper than its budget. -/
inductive Agree {α β : Type} : Except Rejection α → Except Rejection β → Prop
  | accepted (a : α) (b : β) : Agree (.ok a) (.ok b)
  | rejected (rejection : Rejection) : Agree (.error rejection) (.error rejection)
  | leftTooDeep {location : Option Location} {y : Except Rejection β} :
      Agree (.error ⟨.nesting, location⟩) y
  | rightTooDeep {location : Option Location} {x : Except Rejection α} :
      Agree x (.error ⟨.nesting, location⟩)

theorem Agree.bind {α β γ δ : Type} {x : Except Rejection α} {y : Except Rejection β}
    {f : α → Except Rejection γ} {g : β → Except Rejection δ} (h : Agree x y)
    (hnext : ∀ a b, Agree (f a) (g b)) : Agree (x >>= f) (y >>= g) := by
  cases h with
  | accepted a b => exact hnext a b
  | rejected rejection => exact .rejected rejection
  | leftTooDeep => exact .leftTooDeep
  | rightTooDeep => exact .rightTooDeep

theorem Agree.then_ok {α β γ : Type} {x : Except Rejection α} {y : Except Rejection β}
    (h : Agree x y) (g : β → γ) : Agree x (y >>= fun b => .ok (g b)) := by
  cases h with
  | accepted a b => exact .accepted a (g b)
  | rejected rejection => exact .rejected rejection
  | leftTooDeep => exact .leftTooDeep
  | rightTooDeep => exact .rightTooDeep

variable {signatures : Signatures} {params : List String} {home : Option Location}

theorem var_agrees (symbol name : String) (location : Option Location) (n m : Nat)
    (b : IR.Builder) :
    Agree (Code.lower ⟨signatures, params, home⟩ (n + 1) (.var name location))
      (IR.lowerExpr ⟨signatures, symbol, params, home⟩ (m + 1) (.var name location) b) := by
  rw [IR.lowerExpr_var]
  simp only [Code.lower]
  cases hindex : lastIndex? params name with
  | some index =>
    have hmem : name ∈ params := by
      by_contra hnot
      rw [Code.lastIndex?_eq_none.2 hnot] at hindex
      cases hindex
    rw [if_pos hmem]
    exact .accepted _ _
  | none =>
    rw [if_neg (Code.lastIndex?_eq_none.1 hindex)]
    exact .rejected _

theorem mapM_agrees {scope : Scope} {frame : IR.Frame} {n m : Nat}
    (h : ∀ e b, Agree (Code.lower scope n e) (IR.lowerExpr frame m e b)) (args : List Expr)
    (b : IR.Builder) :
    Agree (args.mapM (Code.lower scope n)) (args.mapM (IR.lowerExpr frame m) b) := by
  induction args generalizing b with
  | nil => exact .accepted _ _
  | cons e rest ih =>
    rw [List.mapM_cons, IR.mapM_lowerExpr_cons]
    exact (h e b).bind fun code first =>
      (ih first.2).bind fun codes others => .accepted _ _

/-- The induction is on the budget of the interpreter, with any budget on the other side: each part
of an expression is lowered with one level less of both. -/
theorem expr_agrees (symbol : String) (n m : Nat) (e : Expr) (b : IR.Builder) :
    Agree (Code.lower ⟨signatures, params, home⟩ n e)
      (IR.lowerExpr ⟨signatures, symbol, params, home⟩ m e b) := by
  induction n generalizing m e b with
  | zero =>
    have hzero : Code.lower ⟨signatures, params, home⟩ 0 e = .error ⟨.nesting, home⟩ := by
      cases e <;> rfl
    rw [hzero]
    exact .leftTooDeep
  | succ n ih =>
    cases m with
    | zero =>
      rw [IR.lowerExpr_zero]
      exact .rightTooDeep
    | succ m =>
      cases e with
      | number value location => exact .accepted _ _
      | var name location => exact var_agrees symbol name location n m b
      | binary op lhs rhs location =>
        rw [IR.lowerExpr_binary]
        simp only [Code.lower]
        refine (ih m lhs b).bind fun left first => (ih m rhs first.2).bind fun right second => ?_
        cases Operation.ofSymbol? op with
        | none => exact .rejected _
        | some operation =>
          obtain ⟨operand, after, hemit⟩ :=
            IR.emitOperation_eq first.1 second.1 operation second.2
          simp only [hemit]
          exact .accepted _ _
      | call callee args location =>
        rw [IR.lowerExpr_call]
        simp only [Code.lower]
        cases signatures.resolve callee args.length location with
        | error rejection => exact .rejected rejection
        | ok p =>
          exact (mapM_agrees (fun e b => ih m e b) args _).bind fun codes done => .accepted _ _

theorem function_agrees (n m : Nat) {f : Function} (hf : f.prototype.Regular) :
    Agree (Interpreter.lower n signatures f) (IR.lower m signatures f) := by
  obtain ⟨names, hnames, _⟩ := IR.paramNames_eq hf.distinct hf.params
  simp only [Interpreter.lower, IR.lower, hnames, StateT.run]
  have hbody : Agree
      (Code.lower ⟨signatures, f.prototype.params, f.prototype.location⟩ n f.body)
      (IR.lowerExpr ⟨signatures, IR.symbolOf f.prototype, f.prototype.params,
        f.prototype.location⟩ m f.body ⟨(names.pick "entry").2, [], []⟩) :=
    expr_agrees (IR.symbolOf f.prototype) n m f.body _
  exact hbody.then_ok _

/-! ### Stores -/

namespace Store

variable {β γ : Type}

/-- The functions that have a body, by name. -/
def functions (s : Store β) : Ledger String Function :=
  s.definitions.map fun entry => (entry.1, entry.2.function)

theorem get?_functions (s : Store β) (name : String) :
    s.functions.get? name = (s.definitions.get? name).map Definition.function := by
  obtain ⟨signatures, definitions, scope⟩ := s
  simp only [functions]
  induction definitions with
  | nil => rfl
  | cons entry rest ih =>
    obtain ⟨own, d⟩ := entry
    rw [List.map_cons, Ledger.get?_cons, Ledger.get?_cons, ih]
    split
    · rfl
    · rfl

theorem exists_definition {s : Store β} {name : String} {f : Function}
    (h : s.functions.get? name = some f) :
    ∃ d, s.definitions.get? name = some d ∧ d.function = f := by
  rw [get?_functions] at h
  exact Option.map_eq_some_iff.1 h

theorem isDefined_eq (s : Store β) (name : String) : s.isDefined name = s.functions.has name := by
  rw [isDefined, Ledger.has, Ledger.has, get?_functions, Option.isSome_map]

theorem keys_functions (s : Store β) : s.functions.keys = s.definitions.keys := by
  simp [functions, Ledger.keys]

theorem map_put (definitions : Ledger String (Definition β)) (name : String) (d : Definition β) :
    (definitions.put name d).map (fun entry => (entry.1, entry.2.function)) =
      Ledger.put (definitions.map fun entry => (entry.1, entry.2.function)) name d.function := by
  induction definitions with
  | nil => rfl
  | cons entry rest ih =>
    obtain ⟨own, old⟩ := entry
    simp only [Ledger.put, List.map_cons]
    split
    · rfl
    · rw [List.map_cons, ih]

theorem functions_keep (s : Store β) (d : Definition β) :
    (s.keep d).functions =
      if d.function.prototype.isAnonymous then s.functions
      else s.functions.put d.function.name d.function := by
  unfold keep
  split
  · rfl
  · exact map_put s.definitions d.function.name d

/-- Whether a function may be defined, which only the signatures and the functions decide. -/
def admission (signatures : Signatures) (functions : Ledger String Function) (p : Prototype) :
    Except Rejection Unit :=
  if p.isAnonymous then .ok ()
  else if functions.has p.name then .error ⟨.redefinition p.name, p.location⟩
  else
    match signatures.get? p.name with
    | some known =>
      if known.arity = p.arity then .ok ()
      else .error ⟨.conflict p.name known.arity p.arity, p.location⟩
    | none => .ok ()

theorem enroll_eq_admission (s : Store β) (p : Prototype) :
    s.enroll p = (admission s.signatures s.functions p).map fun _ => s.record p := by
  unfold enroll admission
  rw [isDefined_eq]
  split
  · next hname =>
    rw [record_of_anonymous hname]
    rfl
  · split
    · rfl
    · cases s.signatures.get? p.name with
      | none => rfl
      | some known =>
        dsimp only
        split
        · rfl
        · rfl

/-- Stores of two engines that hold the same signatures, and bodies for the same functions. -/
structure Alike (s : Store β) (t : Store γ) : Prop where
  signatures : s.signatures = t.signatures
  functions : s.functions = t.functions

namespace Alike

variable {s : Store β} {t : Store γ}

theorem empty : Alike ({} : Store β) ({} : Store γ) := ⟨rfl, rfl⟩

theorem record (h : Alike s t) (p : Prototype) : Alike (s.record p) (t.record p) := by
  unfold Store.record
  split
  · exact h
  · exact ⟨by simp only [h.signatures], h.functions⟩

theorem keep (h : Alike s t) {d : Definition β} {e : Definition γ} (hde : d.function = e.function) :
    Alike (s.keep d) (t.keep e) := by
  refine ⟨?_, ?_⟩
  · rw [keep_signatures, keep_signatures, h.signatures]
  · rw [functions_keep, functions_keep, hde, h.functions]

theorem enroll (h : Alike s t) (p : Prototype) :
    (∃ rejection, s.enroll p = .error rejection ∧ t.enroll p = .error rejection) ∨
      s.enroll p = .ok (s.record p) ∧ t.enroll p = .ok (t.record p) := by
  rw [enroll_eq_admission, enroll_eq_admission, h.signatures, h.functions]
  cases admission t.signatures t.functions p with
  | error rejection => exact Or.inl ⟨rejection, rfl, rfl⟩
  | ok _ => exact Or.inr ⟨rfl, rfl⟩

theorem declare (h : Alike s t) (p : Prototype) :
    (∃ rejection, Store.declare p s = .error rejection s ∧
      Store.declare p t = .error rejection t) ∨
    ∃ l k after final, Store.declare p s = .ok l after ∧ Store.declare p t = .ok k final ∧
      Alike after final := by
  unfold Store.declare
  rw [h.signatures]
  cases t.signatures.get? p.name with
  | none => exact Or.inr ⟨_, _, _, _, rfl, rfl, h.record p⟩
  | some known =>
    dsimp only
    split
    · exact Or.inr ⟨_, _, _, _, rfl, rfl, h⟩
    · exact Or.inl ⟨_, rfl, rfl⟩

/-- A definition in stores that are alike, lowered by two means that agree on it. -/
theorem define {lowerS : Signatures → Function → Except Rejection β}
    {lowerT : Signatures → Function → Except Rejection γ} {f : Function} (h : Alike s t)
    (hs : s.scope = none) (ht : t.scope = none)
    (hlower : ∀ signatures, Agree (lowerS signatures f) (lowerT signatures f)) :
    (∃ location, Store.define lowerS f s = .error ⟨.nesting, location⟩ s) ∨
    (∃ location, Store.define lowerT f t = .error ⟨.nesting, location⟩ t) ∨
    (∃ rejection, Store.define lowerS f s = .error rejection s ∧
      Store.define lowerT f t = .error rejection t) ∨
    ∃ l k after final, Store.define lowerS f s = .ok l after ∧
      Store.define lowerT f t = .ok k final ∧ Alike after final := by
  rw [define_eq lowerS f hs, define_eq lowerT f ht]
  rcases h.enroll f.prototype with ⟨rejection, hes, het⟩ | ⟨hes, het⟩
  · rw [hes, het]
    exact Or.inr (Or.inr (Or.inl ⟨rejection, rfl, rfl⟩))
  · rw [hes, het]
    have hrecord := h.record f.prototype
    have hbody := hlower (t.record f.prototype).signatures
    dsimp only
    rw [hrecord.signatures]
    cases hls : lowerS (t.record f.prototype).signatures f with
    | ok body =>
      cases hlt : lowerT (t.record f.prototype).signatures f with
      | ok other =>
        exact Or.inr (Or.inr (Or.inr ⟨_, _, _, _, rfl, rfl, hrecord.keep rfl⟩))
      | error rejection =>
        rw [hls, hlt] at hbody
        cases hbody
        exact Or.inr (Or.inl ⟨_, rfl⟩)
    | error rejection =>
      cases hlt : lowerT (t.record f.prototype).signatures f with
      | ok other =>
        rw [hls, hlt] at hbody
        cases hbody
        exact Or.inl ⟨_, rfl⟩
      | error other =>
        rw [hls, hlt] at hbody
        cases hbody with
        | rejected => exact Or.inr (Or.inr (Or.inl ⟨rejection, rfl, rfl⟩))
        | leftTooDeep => exact Or.inl ⟨_, rfl⟩
        | rightTooDeep => exact Or.inr (Or.inl ⟨_, rfl⟩)

end Alike
end Store

/-! ### Forms as requests -/

/-- The request that a form makes to an engine. -/
def Request.ofForm {η : Type} : Form → Request η
  | .external p => .declare p
  | .function f => .define f

namespace Answer

variable {η θ : Type}

/-- The engine went deeper than its budget. -/
def TooDeep (answer : Answer η) : Prop := ∃ location, answer = .rejected ⟨.nesting, location⟩

def isTooDeep : Answer η → Bool
  | rejected ⟨.nesting, _⟩ => true
  | _ => false

theorem not_tooDeep_of_all {answers : List (Answer η)}
    (h : answers.all (fun answer => !answer.isTooDeep) = true) :
    ∀ answer ∈ answers, ¬ answer.TooDeep := by
  rintro answer hmem ⟨location, rfl⟩
  have hnot := List.all_eq_true.1 h _ hmem
  cases hnot

/-- Both engines lower the form, or both reject it alike. -/
inductive Alike : Answer η → Answer θ → Prop
  | lowered (l : Lowered η) (k : Lowered θ) : Alike (.lowered l) (.lowered k)
  | rejected (rejection : Rejection) : Alike (.rejected rejection) (.rejected rejection)

end Answer

namespace Engine

variable {β γ : Type} {first : Engine (Store β) (Handle β)} {second : Engine (Store γ) (Handle γ)}
  {lowerS : Signatures → Function → Except Rejection β}
  {lowerT : Signatures → Function → Except Rejection γ} {s : Store β} {t : Store γ}

/-- What one form does to stores that are alike, for two engines whose lowering agrees. -/
theorem perform_alike (hfirst : first.OnStore lowerS) (hsecond : second.OnStore lowerT)
    (hlower : ∀ signatures f, f.prototype.Regular →
      Agree (lowerS signatures f) (lowerT signatures f))
    (h : s.Alike t) (hs : s.Closed) (ht : t.Closed) {form : Form}
    (hform : form.prototype.Regular) :
    (first.perform s (.ofForm form)).1.TooDeep ∨ (second.perform t (.ofForm form)).1.TooDeep ∨
      (first.perform s (.ofForm form)).1.Alike (second.perform t (.ofForm form)).1 ∧
        (first.perform s (.ofForm form)).2.Alike (second.perform t (.ofForm form)).2 := by
  cases form with
  | external p =>
    simp only [Request.ofForm, perform, hfirst.declare, hsecond.declare]
    rcases h.declare p with ⟨rejection, hds, hdt⟩ | ⟨l, k, after, final, hds, hdt, hafter⟩
    · rw [hds, hdt]
      exact Or.inr (Or.inr ⟨.rejected rejection, h⟩)
    · rw [hds, hdt]
      exact Or.inr (Or.inr ⟨.lowered l k, hafter⟩)
  | function f =>
    simp only [Request.ofForm, perform, hfirst.define, hsecond.define]
    rcases h.define hs ht fun signatures => hlower signatures f hform with
      ⟨location, hd⟩ | ⟨location, hd⟩ | ⟨rejection, hds, hdt⟩ |
      ⟨l, k, after, final, hds, hdt, hafter⟩
    · rw [step_map_error hd]
      exact Or.inl ⟨location, rfl⟩
    · rw [step_map_error hd]
      exact Or.inr (Or.inl ⟨location, rfl⟩)
    · rw [step_map_error hds, step_map_error hdt]
      exact Or.inr (Or.inr ⟨.rejected rejection, h⟩)
    · rw [step_map_ok hds, step_map_ok hdt]
      exact Or.inr (Or.inr ⟨.lowered _ _, hafter⟩)

theorem serve_append {σ η : Type} (engine : Engine σ η) (s : σ) (requests more : List (Request η)) :
    engine.serve s (requests ++ more) =
      ((engine.serve s requests).1 ++ (engine.serve (engine.serve s requests).2 more).1,
        (engine.serve (engine.serve s requests).2 more).2) := by
  induction requests generalizing s with
  | nil => rfl
  | cons request rest ih =>
    rw [List.cons_append, serve_cons, serve_cons, ih]
    rfl

theorem serve_alike (hfirst : first.OnStore lowerS) (hsecond : second.OnStore lowerT)
    (hlower : ∀ signatures f, f.prototype.Regular →
      Agree (lowerS signatures f) (lowerT signatures f))
    (h : s.Alike t) (hs : s.Closed) (ht : t.Closed) {forms : List Form}
    (hforms : ∀ form ∈ forms, form.prototype.Regular)
    (hdeepS : ∀ answer ∈ (first.serve s (forms.map .ofForm)).1, ¬ answer.TooDeep)
    (hdeepT : ∀ answer ∈ (second.serve t (forms.map .ofForm)).1, ¬ answer.TooDeep) :
    (first.serve s (forms.map .ofForm)).2.Alike (second.serve t (forms.map .ofForm)).2 := by
  induction forms generalizing s t with
  | nil => exact h
  | cons form rest ih =>
    simp only [List.map_cons, serve_cons] at hdeepS hdeepT ⊢
    have hform : form.prototype.Regular := hforms form (List.mem_cons_self ..)
    have hrest : ∀ other ∈ rest, other.prototype.Regular :=
      fun other hother => hforms other (List.mem_cons_of_mem _ hother)
    have hafter : (first.perform s (.ofForm form)).2.Alike (second.perform t (.ofForm form)).2 := by
      rcases perform_alike hfirst hsecond hlower h hs ht hform with hd | hd | ⟨_, hafter⟩
      · exact absurd hd (hdeepS _ (List.mem_cons_self ..))
      · exact absurd hd (hdeepT _ (List.mem_cons_self ..))
      · exact hafter
    exact ih hafter (hfirst.atomic.keeps s _ hs) (hsecond.atomic.keeps t _ ht) hrest
      (fun answer ha => hdeepS answer (List.mem_cons_of_mem _ ha))
      (fun answer ha => hdeepT answer (List.mem_cons_of_mem _ ha))

end Engine

end ScalarLang
