import ScalarLang.Proofs.Parse.Reached

/-!
# What a step of reading passes

Every production only moves forward, also where it fails: it passes tokens, and it stops on a token
that it did not expect or behind a malformed literal. This is shown once for sequences of steps, so
that a production needs no more than its parts.
-/
namespace ScalarLang

/-! ### Standing on a token -/

/-- A reader that stands on a token of a source. -/
structure Reader.Standing (r : Reader) : Prop where
  inside : r.Inside
  current : ∃ t, r.current = some t

namespace Reader

variable {r middle after : Reader} {ts us : List Token}

theorem Passes.current_cases (h : r.Passes ts after) : after = r ∨ ∃ t, after.current = some t := by
  induction h with
  | nil r => exact Or.inl rfl
  | cons _ _ h ih =>
    rcases ih with rfl | hc
    · exact Or.inr ⟨_, rfl⟩
    · exact Or.inr hc

theorem Standing.passes (h : r.Standing) (hp : r.Passes ts after) : after.Standing := by
  refine ⟨h.inside.passes hp, ?_⟩
  rcases hp.current_cases with rfl | hc
  · exact h.current
  · exact hc

/-- How a reader that has passed tokens comes to stand where a step fails. A malformed literal is
used up, and the token in front of it has been passed although the reader still shows it. -/
inductive Stops (r : Reader) : List Token → Failure → Reader → Prop
  | token {ts : List Token} {expected : Expectation} {found : Token} {after : Reader}
      (hp : r.Passes ts after) (hc : after.current = some found) :
      Stops r ts (.unexpected expected found) after
  | literal {ts : List Token} {middle : Reader} {shown : Token} {notes : List Note}
      {fault : Malformed} {rest : List Lexeme} (hp : r.Passes ts middle)
      (hc : middle.current = some shown) (ha : middle.ahead = ⟨notes, .malformed fault⟩ :: rest) :
      Stops r (ts ++ [shown]) (.malformed fault) { middle with ahead := rest }

theorem Stops.after_passes {failure : Failure} (hp : r.Passes ts middle)
    (h : middle.Stops us failure after) : r.Stops (ts ++ us) failure after := by
  cases h with
  | token hp' hc => exact .token (hp.append hp') hc
  | literal hp' hc ha =>
    rw [← List.append_assoc]
    exact .literal (hp.append hp') hc ha

end Reader

namespace Parse

variable {α β : Type} {r : Reader}

/-- Started at the reader, the step moves forward. -/
structure Forward (step : Parse α) (r : Reader) : Prop where
  ok : ∀ a after, step r = .ok a after → ∃ ts, r.Passes ts after
  error : ∀ failure after, step r = .error failure after → ∃ ts, r.Stops ts failure after

/-- The step moves forward wherever it is started. -/
def Advances (step : Parse α) : Prop := ∀ r : Reader, r.Standing → Forward step r

namespace Forward

theorem of_ok {step : Parse α} {a : α} (h : step r = .ok a r) : Forward step r where
  ok a' after h' := by
    rw [h] at h'
    cases h'
    exact ⟨[], .nil r⟩
  error failure after h' := by
    rw [h] at h'
    cases h'

theorem of_eq {step other : Parse α} (h : Forward other r) (heq : step r = other r) :
    Forward step r where
  ok a after hstep := h.ok a after (heq ▸ hstep)
  error failure after hstep := h.error failure after (heq ▸ hstep)

theorem bind {x : Parse α} {f : α → Parse β} (hr : r.Standing) (hx : Forward x r)
    (hf : ∀ a after, x r = .ok a after → after.Standing → Forward (f a) after) :
    Forward (x >>= f) r where
  ok b final h := by
    obtain ⟨a, middle, ha, hb⟩ := step_bind_eq_ok.1 h
    obtain ⟨ts, hts⟩ := hx.ok a middle ha
    obtain ⟨us, hus⟩ := (hf a middle ha (hr.passes hts)).ok b final hb
    exact ⟨ts ++ us, hts.append hus⟩
  error failure final h := by
    cases hx' : x r with
    | error e middle =>
      rw [step_bind_error hx'] at h
      cases h
      exact hx.error failure final hx'
    | ok a middle =>
      rw [step_bind_ok hx'] at h
      obtain ⟨ts, hts⟩ := hx.ok a middle hx'
      obtain ⟨us, hus⟩ := (hf a middle hx' (hr.passes hts)).error failure final h
      exact ⟨ts ++ us, hus.after_passes hts⟩

theorem map {x : Parse α} {g : α → β} (h : Forward x r) : Forward (g <$> x) r where
  ok b after hmap := by
    obtain ⟨a, ha, _⟩ := step_map_eq_ok hmap
    exact h.ok a after ha
  error failure after hmap := by
    cases hx : x r with
    | ok a middle =>
      rw [step_map_ok hx] at hmap
      cases hmap
    | error e middle =>
      rw [step_map_error hx] at hmap
      cases hmap
      exact h.error failure after hx

end Forward

namespace Advances

theorem pure (a : α) : Advances (Pure.pure a : Parse α) := fun _ _ => .of_ok rfl

theorem bind {x : Parse α} {f : α → Parse β} (hx : Advances x) (hf : ∀ a, Advances (f a)) :
    Advances (x >>= f) :=
  fun r hr => (hx r hr).bind hr fun a after _ hafter => hf a after hafter

theorem map {x : Parse α} {g : α → β} (hx : Advances x) : Advances (g <$> x) :=
  fun r hr => (hx r hr).map

theorem ite {c : Prop} [Decidable c] {x y : Parse α} (hx : Advances x) (hy : Advances y) :
    Advances (if c then x else y) := by
  split
  · exact hx
  · exact hy

end Advances

/-! ### Single steps -/

theorem current_advances : Advances current := by
  intro r hr
  obtain ⟨t, ht⟩ := hr.current
  exact .of_ok (current_of_some ht)

theorem rounds_advances : Advances rounds := fun r _ => .of_ok (rounds_eq r)

theorem fail_advances (expected : Expectation) : Advances (fail expected : Parse α) := by
  intro r hr
  obtain ⟨t, ht⟩ := hr.current
  have hfail := fail_of_some (α := α) expected ht
  constructor
  · intro a after h
    rw [hfail] at h
    cases h
  · intro failure after h
    rw [hfail] at h
    cases h
    exact ⟨[], .token (.nil r) ht⟩

theorem require_advances (text : String) (expected : Expectation) :
    Advances (require text expected) :=
  current_advances.bind fun _ => .ite (.pure _) (fail_advances expected)

theorem fetch_advances : Advances fetch := by
  intro r hr
  obtain ⟨t, ht⟩ := hr.current
  rcases hr.inside.fetch_cases with ⟨_, _, hf⟩ | ⟨notes, next, rest, ha, hf⟩ |
    ⟨notes, fault, rest, ha, hf⟩
  · exact .of_ok hf
  · constructor
    · intro u after h
      rw [hf] at h
      cases h
      exact ⟨[t], .cons ht ha (.nil _)⟩
    · intro failure after h
      rw [hf] at h
      cases h
  · constructor
    · intro u after h
      rw [hf] at h
      cases h
    · intro failure after h
      rw [hf] at h
      cases h
      exact ⟨[] ++ [t], .literal (.nil r) ht ha⟩

/-! ### Productions -/

theorem number_forward {t : Token} {value : Float} (hr : r.Standing) (hc : r.current = some t)
    (ht : t.kind = .number value) : Forward number r :=
  .of_eq (fetch_advances.bind (fun _ => .pure _) r hr) (number_of_current hc ht)

theorem parenthesized_advances {inner : Parse Expr} (h : Advances inner) :
    Advances (parenthesized inner) :=
  fetch_advances.bind fun _ => h.bind fun _ => (require_advances _ _).bind fun _ =>
    fetch_advances.bind fun _ => .pure _

theorem arguments_advances {inner : Parse Expr} (h : Advances inner) (fuel : Nat)
    (done : List Expr) : Advances (arguments inner fuel done) := by
  induction fuel generalizing done with
  | zero => exact .pure done
  | succ fuel ih =>
    refine h.bind fun arg => current_advances.bind fun t => .ite (.pure _) ?_
    exact (require_advances _ _).bind fun _ => fetch_advances.bind fun _ => ih _

theorem argumentList_advances {inner : Parse Expr} (h : Advances inner) :
    Advances (argumentList inner) :=
  fetch_advances.bind fun _ => .ite (.pure _)
    (rounds_advances.bind fun fuel => arguments_advances h fuel [])

theorem application_advances {inner : Parse Expr} (h : Advances inner) :
    Advances (application inner) :=
  fetch_advances.bind fun _ => .ite
    ((argumentList_advances h).bind fun _ => fetch_advances.bind fun _ => .pure _) (.pure _)

theorem rightSide_advances (ops : OperatorTable) {climb : Int → Expr → Parse Expr}
    (h : ∀ least lhs, Advances (climb least lhs)) (precedence : Int) (operand : Expr) :
    Advances (rightSide ops climb precedence operand) :=
  current_advances.bind fun _ => .ite (h _ operand) (.pure _)

theorem chain_advances (ops : OperatorTable) {primary : Parse Expr}
    {climb : Int → Expr → Parse Expr} (hprimary : Advances primary)
    (hclimb : ∀ least lhs, Advances (climb least lhs)) (least : Int) (fuel : Nat) (lhs : Expr) :
    Advances (chain ops primary climb least fuel lhs) := by
  induction fuel generalizing lhs with
  | zero => exact .pure lhs
  | succ fuel ih =>
    refine current_advances.bind fun op => .ite (.pure _) ?_
    exact fetch_advances.bind fun _ => hprimary.bind fun operand =>
      (rightSide_advances ops hclimb _ operand).bind fun _ => ih _

theorem primary_advances {ops : OperatorTable} {depth : Nat}
    (h : Advances (expression ops depth)) : Advances (primary ops (depth + 1)) := by
  intro r hr
  obtain ⟨t, ht⟩ := hr.current
  refine (current_advances r hr).bind hr fun u after hcurrent hafter => ?_
  rw [current_of_some ht] at hcurrent
  cases hcurrent
  cases hkind : t.kind with
  | identifier name => exact (application_advances h).bind (fun _ => .pure _) r hr
  | number value => exact number_forward hr ht hkind
  | _ => exact Advances.ite (parenthesized_advances h) (fail_advances _) r hr

theorem productions_advance (ops : OperatorTable) (depth : Nat) :
    Advances (expression ops depth) ∧ (∀ least lhs, Advances (climb ops depth least lhs)) ∧
      Advances (primary ops depth) := by
  induction depth with
  | zero => exact ⟨fail_advances _, fun _ _ => fail_advances _, fail_advances _⟩
  | succ depth ih =>
    obtain ⟨hexpression, hclimb, hprimary⟩ := ih
    refine ⟨hprimary.bind fun lhs => hclimb 0 lhs, fun least lhs => ?_,
      primary_advances hexpression⟩
    exact rounds_advances.bind fun fuel => chain_advances ops hprimary hclimb least fuel lhs

/-! ### Forms -/

theorem parameters_advances (fuel : Nat) (done : List String) :
    Advances (parameters fuel done) := by
  induction fuel generalizing done with
  | zero => exact .pure done
  | succ fuel ih =>
    refine fetch_advances.bind fun t => ?_
    cases t.kind with
    | identifier name => exact .ite (fail_advances _) (ih _)
    | _ => exact .pure done

theorem prototype_advances : Advances prototype := by
  refine current_advances.bind fun t => ?_
  cases t.kind with
  | identifier name =>
    exact fetch_advances.bind fun _ => (require_advances _ _).bind fun _ =>
      rounds_advances.bind fun fuel => (parameters_advances fuel []).bind fun _ =>
        (require_advances _ _).bind fun _ => fetch_advances.bind fun _ => .pure _
  | _ => exact fail_advances _

theorem definition_advances (ops : OperatorTable) (depth : Nat) :
    Advances (definition ops depth) :=
  fetch_advances.bind fun _ => prototype_advances.bind fun _ =>
    (productions_advance ops depth).1.bind fun _ => .pure _

theorem external_advances : Advances external := fetch_advances.bind fun _ => prototype_advances

theorem bareExpression_advances (ops : OperatorTable) (depth : Nat) :
    Advances (bareExpression ops depth) :=
  current_advances.bind fun _ => (productions_advance ops depth).1.bind fun _ => .pure _

end Parse
end ScalarLang
