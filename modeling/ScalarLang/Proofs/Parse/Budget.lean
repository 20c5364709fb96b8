import ScalarLang.Proofs.Parse.Moves

/-!
# Depth budgets only cut off

A step with a smaller depth budget goes the way of the step with a larger one: unless it is
exhausted, it gives the same result and leaves the reader in the same state. Of the operators only
their precedences matter, so a table may also be frozen on one side.
-/
namespace ScalarLang.Parse

variable {α β : Type} {r : Reader}

/-- The second step does what the first does, unless the first goes deeper than its budget. -/
def Approximates (x y : Parse α) : Prop := ∀ r, ¬ Exhausted (x r) → y r = x r

namespace Approximates

theorem refl (x : Parse α) : Approximates x x := fun _ _ => rfl

theorem bind {x y : Parse α} {f g : α → Parse β} (hx : Approximates x y)
    (hf : ∀ a, Approximates (f a) (g a)) : Approximates (x >>= f) (y >>= g) := by
  intro r hr
  cases hstep : x r with
  | error e middle =>
    have hopen : ¬ Exhausted (x r) := by
      rintro ⟨t, after, h⟩
      exact hr ⟨t, after, step_bind_error h⟩
    have hy : y r = .error e middle := (hx r hopen).trans hstep
    rw [step_bind_error hstep, step_bind_error hy]
  | ok a middle =>
    have hopen : ¬ Exhausted (x r) := by
      rintro ⟨t, after, h⟩
      cases hstep.symm.trans h
    have hy : y r = .ok a middle := (hx r hopen).trans hstep
    rw [step_bind_ok hstep] at hr ⊢
    rw [step_bind_ok hy]
    exact hf a middle hr

theorem map {x y : Parse α} (g : α → β) (h : Approximates x y) :
    Approximates (g <$> x) (g <$> y) := by
  intro r hr
  have hopen : ¬ Exhausted (x r) := by
    rintro ⟨t, after, h⟩
    exact hr ⟨t, after, step_map_error h⟩
  have hy := h r hopen
  cases hstep : x r with
  | error e middle => rw [step_map_error hstep, step_map_error (hy.trans hstep)]
  | ok a middle => rw [step_map_ok hstep, step_map_ok (hy.trans hstep)]

theorem ite {c : Prop} [Decidable c] {x y x' y' : Parse α} (hx : Approximates x x')
    (hy : Approximates y y') : Approximates (if c then x else y) (if c then x' else y') := by
  split
  · exact hx
  · exact hy

end Approximates

/-! ### Parts of expressions -/

theorem parenthesized_approximates {inner other : Parse Expr} (h : Approximates inner other) :
    Approximates (parenthesized inner) (parenthesized other) :=
  (Approximates.refl fetch).bind fun _ => h.bind fun _ => .refl _

theorem arguments_approximates {inner other : Parse Expr} (h : Approximates inner other)
    (fuel : Nat) (done : List Expr) :
    Approximates (arguments inner fuel done) (arguments other fuel done) := by
  induction fuel generalizing done with
  | zero => exact .refl _
  | succ fuel ih =>
    refine h.bind fun arg => (Approximates.refl current).bind fun t => .ite (.refl _) ?_
    exact (Approximates.refl _).bind fun _ => (Approximates.refl fetch).bind fun _ => ih _

theorem application_approximates {inner other : Parse Expr} (h : Approximates inner other) :
    Approximates (application inner) (application other) := by
  have hlist : Approximates (argumentList inner) (argumentList other) :=
    (Approximates.refl fetch).bind fun _ => .ite (.refl _)
      ((Approximates.refl rounds).bind fun fuel => arguments_approximates h fuel [])
  exact (Approximates.refl fetch).bind fun _ => .ite (hlist.bind fun _ => .refl _) (.refl _)

section Tables

variable {ops other : OperatorTable}

theorem chain_approximates (hops : ∀ t, other.precedence t = ops.precedence t)
    {primary primary' : Parse Expr} {climb climb' : Int → Expr → Parse Expr}
    (hprimary : Approximates primary primary')
    (hclimb : ∀ least lhs, Approximates (climb least lhs) (climb' least lhs)) (least : Int)
    (fuel : Nat) (lhs : Expr) :
    Approximates (chain ops primary climb least fuel lhs)
      (chain other primary' climb' least fuel lhs) := by
  have hright : ∀ precedence operand, Approximates (rightSide ops climb precedence operand)
      (rightSide other climb' precedence operand) := by
    intro precedence operand
    simp only [rightSide, hops]
    exact (Approximates.refl current).bind fun t => .ite (hclimb _ operand) (.refl _)
  induction fuel generalizing lhs with
  | zero => exact .refl _
  | succ fuel ih =>
    simp only [chain, hops]
    refine (Approximates.refl current).bind fun op => .ite (.refl _) ?_
    exact (Approximates.refl fetch).bind fun _ => hprimary.bind fun operand =>
      (hright _ operand).bind fun rhs => ih _

/-! ### Productions -/

theorem fail_of_none {expected : Expectation} (h : r.current = none) :
    (fail expected : Parse α) r = .error (.noToken .kind) r := by
  obtain ⟨token, ahead, ending⟩ := r
  change token = none at h
  subst h
  rfl

theorem primary_of_none (ops : OperatorTable) (depth : Nat) (h : r.current = none) :
    primary ops depth r = .error (.noToken .kind) r := by
  cases depth with
  | zero => exact fail_of_none h
  | succ depth =>
    obtain ⟨token, ahead, ending⟩ := r
    change token = none at h
    subst h
    rfl

theorem climb_of_none (ops : OperatorTable) (depth : Nat) (least : Int) (lhs : Expr)
    (h : r.current = none) : climb ops depth least lhs r = .error (.noToken .kind) r := by
  cases depth with
  | zero => exact fail_of_none h
  | succ depth =>
    obtain ⟨token, ahead, ending⟩ := r
    change token = none at h
    subst h
    rfl

theorem expression_of_none (ops : OperatorTable) (depth : Nat) (h : r.current = none) :
    expression ops depth r = .error (.noToken .kind) r := by
  cases depth with
  | zero => exact fail_of_none h
  | succ depth => exact step_bind_error (primary_of_none ops depth h)

/-- Without any budget a production fails, because of the budget if there is a token at all. -/
theorem fail_approximates {x : Parse α}
    (h : ∀ r, r.current = none → x r = .error (.noToken .kind) r) :
    Approximates (fail .lessNesting) x := by
  intro r hr
  cases hc : r.current with
  | none => rw [h r hc, fail_of_none hc]
  | some t => exact absurd ⟨t, r, fail_of_some _ hc⟩ hr

/-- The productions call each other with one level less of the budget, so the induction is on the
smaller of the two. -/
theorem productions_approximate (hops : ∀ t, other.precedence t = ops.precedence t) {n m : Nat}
    (hle : n ≤ m) :
    Approximates (expression ops n) (expression other m) ∧
      (∀ least lhs, Approximates (climb ops n least lhs) (climb other m least lhs)) ∧
      Approximates (primary ops n) (primary other m) := by
  induction n generalizing m with
  | zero =>
    exact ⟨fail_approximates fun r hc => expression_of_none other m hc,
      fun least lhs => fail_approximates fun r hc => climb_of_none other m least lhs hc,
      fail_approximates fun r hc => primary_of_none other m hc⟩
  | succ n ih =>
    obtain ⟨m, rfl⟩ : ∃ k, m = k + 1 := ⟨m - 1, by omega⟩
    obtain ⟨hexpression, hclimb, hprimary⟩ := ih (Nat.le_of_succ_le_succ hle)
    refine ⟨hprimary.bind fun lhs => hclimb 0 lhs, fun least lhs => ?_, ?_⟩
    · exact (Approximates.refl rounds).bind fun fuel =>
        chain_approximates hops hprimary hclimb least fuel lhs
    · refine (Approximates.refl current).bind fun t => ?_
      cases t.kind with
      | identifier name => exact (application_approximates hexpression).bind fun _ => .refl _
      | number value => exact .refl _
      | _ => exact .ite (parenthesized_approximates hexpression) (.refl _)

/-! ### Forms -/

theorem definition_approximates (hops : ∀ t, other.precedence t = ops.precedence t) {n m : Nat}
    (hle : n ≤ m) : Approximates (definition ops n) (definition other m) :=
  (Approximates.refl fetch).bind fun _ => (Approximates.refl prototype).bind fun _ =>
    (productions_approximate hops hle).1.bind fun _ => .refl _

theorem bareExpression_approximates (hops : ∀ t, other.precedence t = ops.precedence t) {n m : Nat}
    (hle : n ≤ m) : Approximates (bareExpression ops n) (bareExpression other m) :=
  (Approximates.refl current).bind fun _ =>
    (productions_approximate hops hle).1.bind fun _ => .refl _

theorem form_approximates (hops : ∀ t, other.precedence t = ops.precedence t) {n m : Nat}
    (hle : n ≤ m) : Approximates (form? ops n) (form? other m) := by
  refine (Approximates.refl start).bind fun t => ?_
  cases t.kind with
  | eof => exact .refl _
  | define => exact ((definition_approximates hops hle).map _).map _
  | external => exact .refl _
  | _ => exact .ite (.refl _) (((bareExpression_approximates hops hle).map _).map _)

/-- Two budgets that are not exhausted give the same form. -/
theorem form_eq_of_not_exhausted (hops : ∀ t, other.precedence t = ops.precedence t) {n m : Nat}
    (hn : ¬ Exhausted (form? ops n r)) (hm : ¬ Exhausted (form? other m r)) :
    form? other m r = form? ops n r := by
  rcases Nat.le_total n m with hle | hle
  · exact form_approximates hops hle r hn
  · exact (form_approximates (fun t => (hops t).symm) hle r hm).symm

end Tables

end ScalarLang.Parse
