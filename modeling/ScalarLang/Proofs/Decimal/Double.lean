import Mathlib
import ScalarLang.Decimal.Double

/-!
# Doubles that are written without a sign

A finite double that is not negative is its bits, but for the negative zero. So two of them are
equal as soon as they have the same units.
-/
namespace ScalarLang.Decimal

open Float.Model

section Fields

variable {x : Float}

theorem eq_of_toBits_toNat {y : Float} (h : x.toBits.toNat = y.toBits.toNat) : x = y := by
  rw [← Float.ofBits_toBits x, ← Float.ofBits_toBits y, UInt64.toNat_inj.1 h]

theorem toNat_unpackExponent (x : Float) :
    (@UnpackedFloat.unpackExponent Format.binary64 x.toBits.toBitVec).toNat =
      x.toBits.toNat / 2 ^ 52 % 2 ^ 11 := by
  change (x.toBits.toNat >>> 52) % 2 ^ 11 = _
  rw [Nat.shiftRight_eq_div_pow]

theorem toNat_unpackMantissa (x : Float) :
    (@UnpackedFloat.unpackMantissa Format.binary64 x.toBits.toBitVec).toNat =
      x.toBits.toNat % 2 ^ 52 := by
  change (x.toBits.toNat >>> 0) % 2 ^ 52 = _
  rw [Nat.shiftRight_zero]

theorem toNat_unpackSign (x : Float) :
    (@UnpackedFloat.unpackSign Format.binary64 x.toBits.toBitVec).toNat =
      x.toBits.toNat / 2 ^ 63 % 2 := by
  change (x.toBits.toNat >>> 63) % 2 ^ 1 = _
  rw [Nat.shiftRight_eq_div_pow]

/-- The bits of a finite double without the sign are below those of infinity. -/
theorem lt_infinityBits_of_isFinite (h : x.isFinite = true) :
    x.toBits.toNat % 2 ^ 63 < infinityBits := by
  by_contra hlarge
  have hfield : infinityBits = 2047 * 2 ^ 52 := rfl
  have hexponent : @UnpackedFloat.unpackExponent Format.binary64 x.toBits.toBitVec =
      -1#11 := by
    refine BitVec.eq_of_toNat_eq ?_
    rw [toNat_unpackExponent]
    change _ = 2047
    omega
  change x.toModel.unpack.isFinite = true at h
  unfold Float.Model.unpack UnpackedFloat.unpack at h
  change (if @UnpackedFloat.unpackExponent Format.binary64 x.toBits.toBitVec = -1#11
    then _ else _ : UnpackedFloat).isFinite = true at h
  rw [if_pos hexponent] at h
  split at h
  · cases h
  · cases h

/-- A double that is not below zero has no sign, or is the negative zero. -/
theorem toNat_cases_of_nonneg (h : 0.0 ≤ x) :
    x.toBits.toNat < 2 ^ 63 ∨ x.toBits.toNat = 2 ^ 63 := by
  by_contra hnot
  have hlt := x.toBits.toNat_lt
  have hsign : UnpackedFloat.Sign.ofBitVec
      (@UnpackedFloat.unpackSign Format.binary64 x.toModel.toBits.toBitVec) =
        .negative := by
    refine if_neg fun hzero => ?_
    have hbit := (toNat_unpackSign x).symm.trans (congrArg BitVec.toNat hzero)
    change _ = 0 at hbit
    omega
  change decide ((0.0 : Float).toModel ≤ x.toModel) = true at h
  replace h : UnpackedFloat.le (.zero .positive) x.toModel.unpack = true := of_decide_eq_true h
  unfold Float.Model.unpack UnpackedFloat.unpack at h
  dsimp only at h
  rw [hsign] at h
  split at h
  · split at h
    · cases h
    · cases h
  · split at h
    · next hexponent =>
      split at h
      · next hmantissa =>
        have hhigh := (toNat_unpackExponent x).symm.trans (congrArg BitVec.toNat hexponent)
        have hlow := (toNat_unpackMantissa x).symm.trans (congrArg BitVec.toNat hmantissa)
        change _ = 0 at hhigh hlow
        omega
      · cases h
    · cases h

theorem beq_self_of_isFinite (h : x.isFinite = true) : (x == x) = true := by
  change x.toModel.unpack.isFinite = true at h
  change (x.toModel.unpack.compare x.toModel.unpack == some .eq) = true
  cases hx : x.toModel.unpack with
  | notANumber | infinity s =>
    rw [hx] at h
    cases h
  | zero s => rfl
  | finite s m e hm => cases s <;> simp [UnpackedFloat.compare]

end Fields

/-- The bits of a finite double, but for the sign of the negative zero. -/
structure Unsigned (x : Float) (bits : Nat) : Prop where
  isFinite : x.isFinite = true
  lt : bits < infinityBits
  double : ∃ negative, Double.ofFloat x = .finite negative (unitsOfBits bits) ∧
    (negative = true → bits = 0)
  toNat : x.toBits.toNat = bits ∨ bits = 0 ∧ x.toBits.toNat = 2 ^ 63

theorem exists_unsigned {x : Float} (hfinite : x.isFinite = true) (hnonneg : 0.0 ≤ x) :
    ∃ bits, Unsigned x bits := by
  have hlt := lt_infinityBits_of_isFinite hfinite
  have hdouble : Double.ofFloat x = .finite (decide (2 ^ 63 ≤ x.toBits.toNat))
      (unitsOfBits (x.toBits.toNat % 2 ^ 63)) := if_pos hlt
  refine ⟨x.toBits.toNat % 2 ^ 63, hfinite, hlt, ⟨_, hdouble, fun hnegative => ?_⟩, ?_⟩
  · have hge := of_decide_eq_true hnegative
    rcases toNat_cases_of_nonneg hnonneg with h | h
    · omega
    · omega
  · rcases toNat_cases_of_nonneg hnonneg with h | h
    · exact Or.inl (Nat.mod_eq_of_lt h).symm
    · exact Or.inr ⟨by omega, h⟩

namespace Unsigned

variable {x y : Float} {bits : Nat}

theorem eq_zero_cases (h : Unsigned x 0) : x = 0.0 ∨ x = -0.0 := by
  rcases h.toNat with h | ⟨_, h⟩
  · exact Or.inl (eq_of_toBits_toNat h)
  · exact Or.inr (eq_of_toBits_toNat h)

theorem beq (hx : Unsigned x bits) (hy : Unsigned y bits) : (x == y) = true := by
  by_cases hzero : bits = 0
  · subst hzero
    rcases hx.eq_zero_cases with rfl | rfl
    all_goals
      rcases hy.eq_zero_cases with rfl | rfl
      all_goals rfl
  · have hxbits := hx.toNat.resolve_right fun h => hzero h.1
    have hybits := hy.toNat.resolve_right fun h => hzero h.1
    obtain rfl := eq_of_toBits_toNat (hxbits.trans hybits.symm)
    exact beq_self_of_isFinite hx.isFinite

end Unsigned

end ScalarLang.Decimal
