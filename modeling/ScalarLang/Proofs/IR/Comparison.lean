import Mathlib
import ScalarLang.IR.Evaluate

/-!
# Comparing doubles

Two doubles are ordered unless one of them is not a number. So the comparison that holds for less or
unordered operands, widened to a number, is the operation `<`, which asks whether the right side is
at most the left one.
-/
namespace ScalarLang.IR

open Float.Model

theorem finite_swap (e e' : Int) (m m' : Nat) :
    (compare e' e).then (compare m' m) = ((compare e e').then (compare m m')).swap := by
  have he : compare e' e = (compare e e').swap := Std.OrientedOrd.eq_swap
  have hm : compare m' m = (compare m m').swap := Std.OrientedOrd.eq_swap
  rw [he, hm, Ordering.swap_then]

theorem compare_swap (a b : UnpackedFloat) : b.compare a = (a.compare b).map Ordering.swap := by
  cases a with
  | notANumber => cases b <;> rfl
  | infinity s =>
    cases b with
    | infinity s' => cases s <;> cases s' <;> rfl
    | _ => cases s <;> rfl
  | zero s =>
    cases b with
    | infinity s' => cases s' <;> rfl
    | finite s' m' e' h' => cases s' <;> rfl
    | _ => rfl
  | finite s m e h =>
    cases b with
    | infinity s' => cases s <;> cases s' <;> rfl
    | finite s' m' e' h' =>
      cases s <;> cases s' <;> simp [UnpackedFloat.compare, finite_swap e e' m m']
    | _ => cases s <;> rfl

theorem compare_of_isNaN {a b : UnpackedFloat} (h : a.isNaN = true ∨ b.isNaN = true) :
    a.compare b = none := by
  cases a with
  | notANumber => rfl
  | _ =>
    cases b with
    | notANumber => rfl
    | _ => simp [UnpackedFloat.isNaN] at h

theorem compare_of_numbers {a b : UnpackedFloat} (ha : a.isNaN = false) (hb : b.isNaN = false) :
    ∃ order, a.compare b = some order := by
  cases a with
  | notANumber => cases ha
  | infinity s =>
    cases b with
    | notANumber => cases hb
    | infinity s' => exact ⟨_, rfl⟩
    | _ => cases s <;> exact ⟨_, rfl⟩
  | zero s =>
    cases b with
    | notANumber => cases hb
    | infinity s' => cases s' <;> exact ⟨_, rfl⟩
    | finite s' m' e' h' => cases s' <;> exact ⟨_, rfl⟩
    | zero s' => exact ⟨_, rfl⟩
  | finite s m e h =>
    cases b with
    | notANumber => cases hb
    | infinity s' => cases s <;> cases s' <;> exact ⟨_, rfl⟩
    | finite s' m' e' h' => cases s <;> cases s' <;> exact ⟨_, rfl⟩
    | zero s' => cases s <;> exact ⟨_, rfl⟩

theorem le_eq_not_lessOrUnordered (a b : UnpackedFloat) :
    b.le a = !(a.lt b || a.isNaN || b.isNaN) := by
  unfold UnpackedFloat.le UnpackedFloat.lt
  rw [compare_swap]
  cases ha : a.isNaN with
  | true => simp [compare_of_isNaN (b := b) (.inl ha)]
  | false =>
    cases hb : b.isNaN with
    | true => simp [compare_of_isNaN (a := a) (.inr hb)]
    | false =>
      obtain ⟨order, horder⟩ := compare_of_numbers ha hb
      rw [horder]
      cases order <;> rfl

theorem lessOrUnordered_eq (x y : Float) : lessOrUnordered x y = !decide (y ≤ x) := by
  have hle : y ≤ x ↔ y.toModel.unpack.le x.toModel.unpack = true := by
    change decide (y.toModel ≤ x.toModel) = true ↔ _
    exact decide_eq_true_iff
  have hlt : x < y ↔ x.toModel.unpack.lt y.toModel.unpack = true := by
    change decide (x.toModel < y.toModel) = true ↔ _
    exact decide_eq_true_iff
  simp only [lessOrUnordered, hle, hlt, Bool.decide_eq_true]
  rw [le_eq_not_lessOrUnordered, Bool.not_not]
  rfl

theorem truth_lessOrUnordered (x y : Float) :
    truth (lessOrUnordered x y) = Operation.less.apply x y := by
  rw [lessOrUnordered_eq, truth, Operation.apply]
  by_cases h : y ≤ x
  · simp [h]
  · simp [h]

end ScalarLang.IR
