import ScalarLang.Proofs.Engine.History
import ScalarLang.Proofs.IR.Lowering
import ScalarLang.Proofs.Parse.Budget

/-!
# Engines with larger depth budgets

Lowering an expression and running code each take a depth budget. With a larger one they go the same
way: they give the same result and leave the same store, unless the smaller one was exhausted. So a
budget decides where an engine gives up, and never what it answers.
-/
namespace ScalarLang

/-! ### Results that a budget cuts off -/

/-- What a smaller and a larger budget give: the same, unless the smaller one was exhausted. -/
inductive CutOff {ε α : Type} (deep : ε → Prop) : Except ε α → Except ε α → Prop
  | same (x : Except ε α) : CutOff deep x x
  | exhausted {e : ε} (h : deep e) (y : Except ε α) : CutOff deep (.error e) y

namespace CutOff

variable {ε α β : Type} {deep : ε → Prop} {x y : Except ε α}

theorem bind {f g : α → Except ε β} (h : CutOff deep x y) (hf : ∀ a, CutOff deep (f a) (g a)) :
    CutOff deep (x >>= f) (y >>= g) := by
  cases h with
  | same =>
    cases x with
    | error e => exact .same _
    | ok a => exact hf a
  | exhausted he y => exact .exhausted he _

theorem mapM {f g : α → Except ε β} (h : ∀ a, CutOff deep (f a) (g a)) (as : List α) :
    CutOff deep (as.mapM f) (as.mapM g) := by
  induction as with
  | nil => exact .same _
  | cons a rest ih =>
    rw [List.mapM_cons, List.mapM_cons]
    exact (h a).bind fun b => ih.bind fun bs => .same _

end CutOff

/-- The report of the failure says that the budget was exhausted. -/
def Failure.TooDeep (failure : Failure) : Prop := failure.diagnostic.code = some "P004"

/-- The report of the rejection says that the budget was exhausted. -/
def Rejection.TooDeep (r : Rejection) : Prop :=
  r.diagnostic.message = "expression nested too deeply"

/-- The report of the failure says that the budget was exhausted. -/
def Trap.TooDeep (trap : Trap) : Prop :=
  ∃ d, trap.diagnostic? = some d ∧ d.message = "maximum recursion depth exceeded"

theorem Failure.tooDeep_lessNesting (t : Token) : TooDeep (.unexpected .lessNesting t) := rfl

theorem Rejection.tooDeep_nesting (location : Option Location) :
    TooDeep ⟨.nesting, location⟩ := rfl

theorem Trap.tooDeep_depth : TooDeep .depth := ⟨_, rfl, rfl⟩

/-! ### Lowering -/

/-- The induction is on the smaller budget; each part of an expression has one level less of
both. -/
theorem Code.lower_cutOff (scope : Scope) {n m : Nat} (hle : n ≤ m) (e : Expr) :
    CutOff Rejection.TooDeep (lower scope n e) (lower scope m e) := by
  induction n generalizing m e with
  | zero =>
    have hzero : lower scope 0 e = .error ⟨.nesting, scope.home⟩ := by cases e <;> rfl
    rw [hzero]
    exact .exhausted (Rejection.tooDeep_nesting _) _
  | succ n ih =>
    obtain ⟨m, rfl⟩ : ∃ k, m = k + 1 := ⟨m - 1, by omega⟩
    have hless : n ≤ m := Nat.le_of_succ_le_succ hle
    cases e with
    | number value location => exact .same _
    | var name location => exact .same _
    | binary op lhs rhs location =>
      simp only [lower]
      exact (ih hless lhs).bind fun _ => (ih hless rhs).bind fun _ => .same _
    | call callee args location =>
      simp only [lower]
      exact (CutOff.same _).bind fun _ => (CutOff.mapM (ih hless) args).bind fun _ => .same _

namespace IR

theorem mapM_lowerExpr_cutOff {frame : Frame} {n m : Nat}
    (h : ∀ e b, CutOff Rejection.TooDeep (lowerExpr frame n e b) (lowerExpr frame m e b))
    (args : List Expr) (b : Builder) :
    CutOff Rejection.TooDeep (args.mapM (lowerExpr frame n) b)
      (args.mapM (lowerExpr frame m) b) := by
  induction args generalizing b with
  | nil => exact .same _
  | cons e rest ih =>
    rw [mapM_lowerExpr_cons, mapM_lowerExpr_cons]
    exact (h e b).bind fun first => (ih first.2).bind fun _ => .same _

theorem lowerExpr_cutOff (frame : Frame) {n m : Nat} (hle : n ≤ m) (e : Expr) (b : Builder) :
    CutOff Rejection.TooDeep (lowerExpr frame n e b) (lowerExpr frame m e b) := by
  induction n generalizing m e b with
  | zero =>
    rw [lowerExpr_zero]
    exact .exhausted (Rejection.tooDeep_nesting _) _
  | succ n ih =>
    obtain ⟨m, rfl⟩ : ∃ k, m = k + 1 := ⟨m - 1, by omega⟩
    have hless : n ≤ m := Nat.le_of_succ_le_succ hle
    cases e with
    | number value location => exact .same _
    | var name location =>
      rw [lowerExpr_var, lowerExpr_var]
      exact .same _
    | binary op lhs rhs location =>
      rw [lowerExpr_binary, lowerExpr_binary]
      exact (ih hless lhs b).bind fun left => (ih hless rhs left.2).bind fun _ => .same _
    | call callee args location =>
      rw [lowerExpr_call, lowerExpr_call]
      exact (CutOff.same _).bind fun p =>
        (mapM_lowerExpr_cutOff (ih hless) args _).bind fun _ => .same _

theorem lower_cutOff {n m : Nat} (hle : n ≤ m) (signatures : Signatures) (f : Function) :
    CutOff Rejection.TooDeep (lower n signatures f) (lower m signatures f) := by
  simp only [lower, StateT.run]
  exact (lowerExpr_cutOff _ hle f.body _).bind fun _ => .same _

/-- What the runtime says of a module does not depend on the budget. -/
theorem compile_cutOff (runtime : Runtime) {n m : Nat} (hle : n ≤ m) (signatures : Signatures)
    (f : Function) :
    CutOff Rejection.TooDeep (compile runtime n signatures f) (compile runtime m signatures f) :=
  (lower_cutOff hle signatures f).bind fun _ => .same _

end IR

/-! ### Running -/

namespace Code

variable {natives : Ledger String Native} {definitions : Ledger String (Definition Code)}

/-- Functions are entered with what the caller has left of its budget, so the induction is on that
and goes through all bodies at once. -/
theorem run_cutOff {n m : Nat} (hle : n ≤ m) (code : Code) (args : List Float) :
    CutOff Trap.TooDeep (run natives definitions n code args)
      (run natives definitions m code args) := by
  induction n generalizing m code args with
  | zero =>
    have hzero : run natives definitions 0 code args = .error .depth := by cases code <;> rfl
    rw [hzero]
    exact .exhausted Trap.tooDeep_depth _
  | succ n ih =>
    obtain ⟨m, rfl⟩ : ∃ k, m = k + 1 := ⟨m - 1, by omega⟩
    have hless : n ≤ m := Nat.le_of_succ_le_succ hle
    cases code with
    | number value => exact .same _
    | argument index => exact .same _
    | operation op lhs rhs =>
      simp only [run]
      exact (ih hless lhs args).bind fun _ => (ih hless rhs args).bind fun _ => .same _
    | call callee params =>
      simp only [run]
      refine (CutOff.mapM (fun param => ih hless param args) params).bind fun values => ?_
      cases definitions.get? callee with
      | some definition => exact ih hless definition.body values
      | none => exact .same _

end Code

namespace Interpreter

variable {natives : Ledger String Native} {n m : Nat}

theorem execute_cutOff (hle : n ≤ m) (s : Store Code) (handle : Handle Code) :
    CutOff Trap.TooDeep (execute natives n s handle) (execute natives m s handle) := by
  unfold execute
  split
  · cases handle with
    | defined d => exact Code.run_cutOff hle d.body []
    | declared requested recorded =>
      exact Code.run_cutOff (Nat.succ_le_succ hle) (.call requested.name []) []
    | plain name arity => exact Code.run_cutOff (Nat.succ_le_succ hle) (.call name []) []
  · exact .same _

end Interpreter

/-! ### Steps over a store -/

/-- A step and the same one with a larger budget: both give the same and leave the same state,
unless the first failed because its budget was exhausted. -/
def StepCutOff {ε σ α : Type} (deep : ε → Prop) (x y : EStateM ε σ α) : Prop :=
  ∀ s, (∃ e after, x s = .error e after ∧ deep e) ∨ y s = x s

namespace StepCutOff

variable {ε σ α β : Type} {deep : ε → Prop} {x y : EStateM ε σ α}

theorem refl (x : EStateM ε σ α) : StepCutOff deep x x := fun _ => .inr rfl

theorem map (g : α → β) (h : StepCutOff deep x y) : StepCutOff deep (g <$> x) (g <$> y) := by
  intro s
  rcases h s with ⟨e, after, hx, he⟩ | hsame
  · exact .inl ⟨e, after, step_map_error hx, he⟩
  · right
    cases hx : x s with
    | ok a after => rw [step_map_ok hx, step_map_ok (hsame.trans hx)]
    | error e after => rw [step_map_error hx, step_map_error (hsame.trans hx)]

theorem ofExcept {x y : Except ε α} (h : CutOff deep x y) :
    StepCutOff deep (ofExcept x : EStateM ε σ α) (ofExcept y) := by
  intro s
  cases h with
  | same => exact .inr rfl
  | exhausted he _ => exact .inl ⟨_, s, rfl, he⟩

end StepCutOff

theorem Parse.form_cutOff (ops : OperatorTable) {n m : Nat} (hle : n ≤ m) :
    StepCutOff Failure.TooDeep (form? ops n) (form? ops m) := by
  intro r
  by_cases hdeep : Exhausted (form? ops n r)
  · obtain ⟨t, after, h⟩ := hdeep
    exact .inl ⟨_, after, h, Failure.tooDeep_lessNesting t⟩
  · exact .inr (form_approximates (fun _ => rfl) hle r hdeep)

/-- A definition that is rejected is taken back under either budget. -/
theorem Store.define_cutOff {β : Type} {lower other : Signatures → Function → Except Rejection β}
    {f : Function}
    (h : ∀ signatures, CutOff Rejection.TooDeep (lower signatures f) (other signatures f)) :
    StepCutOff Rejection.TooDeep (define lower f) (define other f) := by
  intro s
  obtain ⟨p, body⟩ := f
  unfold define
  cases s.enroll p with
  | error rejection => exact .inr rfl
  | ok enrolled =>
    have hbody := h enrolled.signatures
    simp only [lowerExpr]
    generalize lower enrolled.signatures ⟨p, body⟩ = first at hbody ⊢
    generalize other enrolled.signatures ⟨p, body⟩ = second at hbody ⊢
    cases hbody with
    | same => exact .inr rfl
    | exhausted hr _ => exact .inl ⟨_, _, rfl, hr⟩

namespace Interpreter

variable {natives : Ledger String Native} {n m : Nat}

theorem define_cutOff (hle : n ≤ m) (f : Function) :
    StepCutOff Rejection.TooDeep ((engine natives n).define f) ((engine natives m).define f) :=
  (Store.define_cutOff fun _ => Code.lower_cutOff _ hle f.body).map _

/-- Running reads the store and leaves it alone. -/
theorem engine_execute_cutOff (hle : n ≤ m) (handle : Handle Code) :
    StepCutOff Trap.TooDeep ((engine natives n).execute handle)
      ((engine natives m).execute handle) :=
  fun s => StepCutOff.ofExcept (execute_cutOff hle s handle) s

end Interpreter

namespace IR

variable {runtime : Runtime} {n m : Nat}

theorem define_cutOff (hle : n ≤ m) (f : Function) :
    StepCutOff Rejection.TooDeep ((engine n runtime).define f) ((engine m runtime).define f) :=
  (Store.define_cutOff fun signatures => compile_cutOff runtime hle signatures f).map _

theorem runnable_cutOff (hle : n ≤ m) (handle : Handle Module) :
    StepCutOff Rejection.TooDeep (runnable runtime n handle) (runnable runtime m handle) := by
  have hwrapper : ∀ f, StepCutOff Rejection.TooDeep
      ((fun lowered : Lowered (Definition Module) => lowered.handle.body) <$>
        Store.define (compile runtime n) f)
      ((fun lowered : Lowered (Definition Module) => lowered.handle.body) <$>
        Store.define (compile runtime m) f) :=
    fun f => (Store.define_cutOff fun signatures => compile_cutOff runtime hle signatures f).map _
  cases handle with
  | defined d => exact .refl _
  | declared requested recorded => exact hwrapper _
  | plain name arity => exact hwrapper _

/-- Only the wrapper of a call takes a budget. -/
theorem execute_cutOff (hle : n ≤ m) (handle : Handle Module) :
    StepCutOff (fun trap => ∃ r, trap = .rejected r ∧ r.TooDeep) (execute runtime n handle)
      (execute runtime m handle) := by
  intro s
  unfold execute
  split
  · rcases runnable_cutOff hle handle s with ⟨r, after, hr, hdeep⟩ | hsame
    · rw [hr]
      exact .inl ⟨_, _, rfl, r, rfl, hdeep⟩
    · rw [hsame]
      exact .inr rfl
  · exact .inr rfl

end IR

/-! ### Histories -/

/-- The engine reports that a budget was exhausted. -/
inductive Answer.GaveUp {η : Type} : Answer η → Prop
  | lowering {r : Rejection} (h : r.TooDeep) : GaveUp (.rejected r)
  | running {trap : Trap} (h : trap.TooDeep) : GaveUp (.trapped trap)
  | wrapping {r : Rejection} (h : r.TooDeep) : GaveUp (.trapped (.rejected r))

/-- Two engines that differ in their budgets, of which the second has the larger one. -/
structure Engine.Deepened {σ η : Type} (first second : Engine σ η) : Prop where
  declare : second.declare = first.declare
  define : ∀ f, StepCutOff Rejection.TooDeep (first.define f) (second.define f)
  execute : ∀ handle, StepCutOff (fun trap => (Answer.trapped trap : Answer η).GaveUp)
    (first.execute handle) (second.execute handle)

namespace Engine.Deepened

variable {σ η : Type} {first second : Engine σ η}

theorem perform (h : first.Deepened second) (s : σ) (request : Request η) :
    (first.perform s request).1.GaveUp ∨ second.perform s request = first.perform s request := by
  cases request with
  | declare p => exact .inr (by simp only [Engine.perform, h.declare])
  | define f =>
    rcases h.define f s with ⟨r, after, hr, hdeep⟩ | hsame
    · left
      simp only [Engine.perform, hr]
      exact .lowering hdeep
    · exact .inr (by simp only [Engine.perform, hsame])
  | execute handle =>
    rcases h.execute handle s with ⟨trap, after, ht, hdeep⟩ | hsame
    · left
      simp only [Engine.perform, ht]
      exact hdeep
    · exact .inr (by simp only [Engine.perform, hsame])

/-- As long as no budget is exhausted both engines are in the same state before each request. -/
theorem serve (h : first.Deepened second) (s : σ) (requests : List (Request η)) :
    (∃ answer ∈ (first.serve s requests).1, answer.GaveUp) ∨
      second.serve s requests = first.serve s requests := by
  induction requests generalizing s with
  | nil => exact .inr rfl
  | cons request rest ih =>
    rw [serve_cons, serve_cons]
    rcases h.perform s request with hgave | hsame
    · exact .inl ⟨_, List.mem_cons_self .., hgave⟩
    · rw [hsame]
      rcases ih (first.perform s request).2 with ⟨answer, hmem, hgave⟩ | hrest
      · exact .inl ⟨answer, List.mem_cons_of_mem _ hmem, hgave⟩
      · exact .inr (by rw [hrest])

end Engine.Deepened

theorem Interpreter.deepened (natives : Ledger String Native) {n m : Nat} (hle : n ≤ m) :
    (engine natives n).Deepened (engine natives m) where
  declare := rfl
  define := define_cutOff hle
  execute handle s :=
    (engine_execute_cutOff hle handle s).imp_left fun ⟨trap, after, ht, hdeep⟩ =>
      ⟨trap, after, ht, .running hdeep⟩

theorem IR.deepened (runtime : Runtime) {n m : Nat} (hle : n ≤ m) :
    (engine n runtime).Deepened (engine m runtime) where
  declare := rfl
  define := define_cutOff hle
  execute handle s := by
    rcases execute_cutOff hle handle s with ⟨_, after, ht, r, rfl, hdeep⟩ | hsame
    · exact .inl ⟨_, after, ht, .wrapping hdeep⟩
    · exact .inr hsame

/-! ### Reading, lowering and running -/

/-- Of two budgets the larger one gives the same where the smaller one is not exhausted: the same
form or failure and the same reader after it, the same handle or rejection and the same store, and
the same value or failure. So a whole history of requests gets the same answers, too. To run a
function that is not defined a code generator first lowers a call of it; it has no other use of a
budget when it runs something, whatever runtime it hands code to. -/
theorem larger_budget_changes_no_result {n m : Nat} (hle : n ≤ m) :
    (∀ ops : OperatorTable,
      StepCutOff Failure.TooDeep (Parse.form? ops n) (Parse.form? ops m)) ∧
    (∀ (natives : Ledger String Native) (f : Function),
      StepCutOff Rejection.TooDeep ((Interpreter.engine natives n).define f)
        ((Interpreter.engine natives m).define f)) ∧
    (∀ (runtime : IR.Runtime) (f : Function),
      StepCutOff Rejection.TooDeep ((IR.engine n runtime).define f)
        ((IR.engine m runtime).define f)) ∧
    (∀ (natives : Ledger String Native) (handle : Handle Code),
      StepCutOff Trap.TooDeep ((Interpreter.engine natives n).execute handle)
        ((Interpreter.engine natives m).execute handle)) ∧
    (∀ (runtime : IR.Runtime) (handle : Handle IR.Module),
      StepCutOff (fun trap => ∃ r, trap = .rejected r ∧ r.TooDeep)
        ((IR.engine n runtime).execute handle) ((IR.engine m runtime).execute handle)) ∧
    (∀ natives s requests,
      (∃ answer ∈ ((Interpreter.engine natives n).serve s requests).1, answer.GaveUp) ∨
        (Interpreter.engine natives m).serve s requests =
          (Interpreter.engine natives n).serve s requests) ∧
    ∀ runtime s requests,
      (∃ answer ∈ ((IR.engine n runtime).serve s requests).1, answer.GaveUp) ∨
        (IR.engine m runtime).serve s requests = (IR.engine n runtime).serve s requests :=
  ⟨fun ops => Parse.form_cutOff ops hle, fun _ => Interpreter.define_cutOff hle,
    fun _ => IR.define_cutOff hle, fun _ => Interpreter.engine_execute_cutOff hle,
    fun _ => IR.execute_cutOff hle, fun natives => (Interpreter.deepened natives hle).serve,
    fun runtime => (IR.deepened runtime hle).serve⟩

/-- Three levels suffice to read a sum, and to lower and run one with a call in it; two are too few
for lowering it. -/
theorem larger_budget_changes_no_result_three :
    let source := Reader.ofSource "" "x+y".toList
    let requests : List (Request (Handle Code)) := [.define ⟨⟨"g", ["a"], none⟩, .var "a" none⟩,
      .define ⟨⟨"f", [], none⟩,
        .binary "+" (.number 1 none) (.call "g" [.number 2 none] none) none⟩,
      .execute (.plain "f" 0)]
    3 ≤ 9 ∧ Parse.form? .standard 9 source = Parse.form? .standard 3 source ∧
      (Interpreter.engine [] 9).serve {} requests = (Interpreter.engine [] 3).serve {} requests ∧
      ∃ answer ∈ ((Interpreter.engine [] 2).serve {} requests).1, answer.GaveUp := by
  intro source requests
  have hle : 3 ≤ 9 := by decide
  obtain ⟨hread, _, _, _, _, hserve, _⟩ := larger_budget_changes_no_result hle
  refine ⟨hle, ?_, ?_, ?_⟩
  · rcases hread .standard source with ⟨failure, after, herror, _⟩ | hsame
    · obtain ⟨form, rest, hok⟩ : ∃ form rest, Parse.form? .standard 3 source = .ok form rest :=
        ⟨_, _, rfl⟩
      cases hok.symm.trans herror
    · exact hsame
  · rcases hserve [] {} requests with ⟨answer, hmem, hgave⟩ | hsame
    · obtain ⟨first, second, x, hanswers⟩ :
          ∃ first second x, ((Interpreter.engine [] 3).serve {} requests).1 =
            [.lowered first, .lowered second, .value x] := ⟨_, _, _, rfl⟩
      rw [hanswers] at hmem
      simp only [List.mem_cons, List.not_mem_nil, or_false] at hmem
      rcases hmem with rfl | rfl | rfl
      all_goals cases hgave
    · exact hsame
  · obtain ⟨first, r, other, hanswers, hdeep⟩ :
        ∃ first r other, ((Interpreter.engine [] 2).serve {} requests).1 =
          [.lowered first, .rejected r, other] ∧ r.TooDeep := ⟨_, _, _, rfl, rfl⟩
    rw [hanswers]
    exact ⟨.rejected r, by simp, .lowering hdeep⟩

end ScalarLang
