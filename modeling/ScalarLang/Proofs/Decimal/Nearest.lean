import Mathlib
import ScalarLang.Decimal.Double

/-!
# The nearest double

A double is found again from every fraction that is close enough to it. The distance is bounded
relative to the double, which covers both sides of a power of two, where the spacing changes.
-/
namespace ScalarLang.Decimal

theorem twoTo_eq (n : Nat) : twoTo n = 2 ^ n := rfl

theorem tenTo_eq (n : Nat) : tenTo n = 10 ^ n := rfl

/-! ### Rounding to a whole number -/

section Rounding

variable {num den m k : Nat}

theorem roundHalfEven_bounds (num : Nat) (hden : 0 < den) :
    2 * (roundHalfEven num den * den) ≤ 2 * num + den ∧
      2 * num ≤ 2 * (roundHalfEven num den * den) + den := by
  have hsplit := Nat.div_add_mod num den
  have hlt := Nat.mod_lt num hden
  rw [Nat.mul_comm] at hsplit
  unfold roundHalfEven
  dsimp only
  split
  · omega
  · rw [Nat.add_mul, Nat.one_mul]
    omega

theorem roundHalfEven_eq (hlow : 2 * (m * den) < 2 * num + den)
    (hhigh : 2 * num < 2 * (m * den) + den) : roundHalfEven num den = m := by
  have hden : 0 < den := by omega
  obtain ⟨hle, hge⟩ := roundHalfEven_bounds num hden
  rcases Nat.lt_trichotomy (roundHalfEven num den) m with hlt | heq | hgt
  · have hstep := Nat.mul_le_mul_right den (Nat.succ_le_of_lt hlt)
    rw [Nat.succ_mul] at hstep
    omega
  · exact heq
  · have hstep := Nat.mul_le_mul_right den (Nat.succ_le_of_lt hgt)
    rw [Nat.succ_mul] at hstep
    omega

theorem roundHalfEven_mul (hk : 0 < k) (num den : Nat) :
    roundHalfEven (k * num) (k * den) = roundHalfEven num den := by
  have hless : 2 * (k * (num % den)) < k * den ↔ 2 * (num % den) < den := by
    rw [Nat.mul_left_comm]
    exact Nat.mul_lt_mul_left hk
  have hequal : 2 * (k * (num % den)) = k * den ↔ 2 * (num % den) = den := by
    rw [Nat.mul_left_comm]
    exact Nat.mul_right_inj hk.ne'
  simp only [roundHalfEven, Nat.mul_div_mul_left _ _ hk, Nat.mul_mod_mul_left, hless, hequal]

/-- Only the value of a fraction counts. -/
theorem nearestBits_mul (hk : 0 < k) (num den : Nat) :
    nearestBits (k * num) (k * den) = nearestBits num den := by
  simp only [nearestBits, Nat.mul_div_mul_left _ _ hk, Nat.mul_assoc, roundHalfEven_mul hk]

end Rounding

/-! ### Bits and units -/

/-- A finite magnitude as a significand below `2 ^ 53` and a spacing, which is the least one or has
a significand of full length. -/
structure Magnitude where
  significand : Nat
  spacing : Nat
  lt : significand < 2 ^ 53
  full : spacing = 0 ∨ 2 ^ 52 ≤ significand

namespace Magnitude

def units (a : Magnitude) : Nat := a.significand * 2 ^ a.spacing

/-- The bits of a magnitude. The first bit of a full significand carries into the exponent field. -/
def bits (a : Magnitude) : Nat := a.spacing * 2 ^ 52 + a.significand

variable {significand spacing : Nat} (hlt : significand < 2 ^ 53)
  (hfull : spacing = 0 ∨ 2 ^ 52 ≤ significand)

theorem units_mk : (mk significand spacing hlt hfull).units = significand * 2 ^ spacing := rfl

theorem bits_mk : (mk significand spacing hlt hfull).bits = spacing * 2 ^ 52 + significand := rfl

end Magnitude

theorem exists_magnitude (bits : Nat) :
    ∃ a : Magnitude, a.bits = bits ∧ a.units = unitsOfBits bits := by
  have hsplit := Nat.div_add_mod bits (2 ^ 52)
  have hlt := Nat.mod_lt bits (Nat.two_pow_pos 52)
  unfold unitsOfBits
  simp only [twoTo_eq]
  generalize bits % 2 ^ 52 = fraction at *
  generalize bits / 2 ^ 52 = field at *
  cases field with
  | zero =>
    have hsmall : fraction < 2 ^ 53 := by omega
    refine ⟨⟨fraction, 0, hsmall, Or.inl rfl⟩, ?_, ?_⟩
    · rw [Magnitude.bits_mk]
      omega
    · rw [Magnitude.units_mk, Nat.pow_zero, Nat.mul_one]
  | succ exponent =>
    have hsmall : 2 ^ 52 + fraction < 2 ^ 53 := by omega
    refine ⟨⟨2 ^ 52 + fraction, exponent, hsmall, Or.inr (by omega)⟩, ?_, rfl⟩
    rw [Magnitude.bits_mk]
    omega

/-! ### Close fractions -/

theorem log2_eq {n k : Nat} (hlow : 2 ^ k ≤ n) (hhigh : n < 2 ^ (k + 1)) : n.log2 = k := by
  have hne : n ≠ 0 := by
    have hpos := Nat.two_pow_pos k
    omega
  have hle := (Nat.le_log2 hne).2 hlow
  have hlt := (Nat.log2_lt hne).2 hhigh
  omega

theorem nearestBits_of_spacing {num den s m : Nat} (hspacing : (num / den).log2 - 52 = s)
    (hround : roundHalfEven num (den * 2 ^ s) = m) (hfinite : s * 2 ^ 52 + m < infinityBits) :
    nearestBits num den = s * 2 ^ 52 + m := by
  unfold nearestBits
  simp only [twoTo_eq, hspacing, hround]
  exact Nat.min_eq_right hfinite.le

/-- A fraction is close to a magnitude: the distance is at most its part of `2 * 10 ^ 16`. -/
structure Close (a : Magnitude) (num den : Nat) : Prop where
  low : (2 * 10 ^ 16 - 1) * (a.units * den) ≤ 2 * 10 ^ 16 * num
  high : 2 * 10 ^ 16 * num ≤ (2 * 10 ^ 16 + 1) * (a.units * den)

namespace Close

variable {a : Magnitude} {num den : Nat}

theorem units_mul (a : Magnitude) (den : Nat) :
    a.units * den = a.significand * (den * 2 ^ a.spacing) := by
  rw [Magnitude.units, Nat.mul_assoc, Nat.mul_comm (2 ^ a.spacing)]

/-- A close fraction is less than half a spacing away. -/
theorem half (h : Close a num den) (hden : 0 < den) :
    2 * (a.significand * (den * 2 ^ a.spacing)) < 2 * num + den * 2 ^ a.spacing ∧
      2 * num < 2 * (a.significand * (den * 2 ^ a.spacing)) + den * 2 ^ a.spacing := by
  obtain ⟨hlow, hhigh⟩ := h
  rw [units_mul] at hlow hhigh
  have hwidth : 0 < den * 2 ^ a.spacing := Nat.mul_pos hden (Nat.two_pow_pos _)
  have hle : a.significand * (den * 2 ^ a.spacing) ≤ (2 ^ 53 - 1) * (den * 2 ^ a.spacing) :=
    Nat.mul_le_mul_right _ (Nat.le_sub_one_of_lt a.lt)
  generalize a.significand * (den * 2 ^ a.spacing) = x at *
  generalize den * 2 ^ a.spacing = width at *
  constructor
  · omega
  · omega

/-- Where the fraction has the spacing of the magnitude, it rounds to its significand. -/
theorem nearestBits_of_not_lt (h : Close a num den) (hden : 0 < den)
    (hlow : a.spacing = 0 ∨ 2 ^ 52 * (den * 2 ^ a.spacing) ≤ num)
    (hfinite : a.bits < infinityBits) : nearestBits num den = a.bits := by
  obtain ⟨hbelow, habove⟩ := h.half hden
  have hspacing : (num / den).log2 - 52 = a.spacing := by
    have hhigh : num / den < 2 ^ (52 + a.spacing + 1) := by
      have hle : a.significand * (den * 2 ^ a.spacing) ≤ (2 ^ 53 - 1) * (den * 2 ^ a.spacing) :=
        Nat.mul_le_mul_right _ (Nat.le_sub_one_of_lt a.lt)
      have heq : 2 ^ (52 + a.spacing + 1) * den = 2 ^ 53 * (den * 2 ^ a.spacing) := by ring
      rw [Nat.div_lt_iff_lt_mul hden, heq]
      omega
    rcases hlow with hzero | hlow
    · rw [hzero] at hhigh ⊢
      rcases Nat.eq_zero_or_pos (num / den) with hnum | hnum
      · rw [hnum]
        rfl
      · have hlt := (Nat.log2_lt hnum.ne').2 hhigh
        omega
    · have heq : 2 ^ (52 + a.spacing) * den = 2 ^ 52 * (den * 2 ^ a.spacing) := by ring
      have hle : 2 ^ (52 + a.spacing) ≤ num / den := by
        rw [Nat.le_div_iff_mul_le hden, heq]
        exact hlow
      rw [log2_eq hle hhigh]
      omega
  exact nearestBits_of_spacing hspacing (roundHalfEven_eq hbelow habove) hfinite

/-- Below a power of two the spacing is half of that above, and the fraction still rounds to the
power. -/
theorem nearestBits_of_lt (h : Close a num den) (hden : 0 < den) (hspacing : a.spacing ≠ 0)
    (hlow : num < 2 ^ 52 * (den * 2 ^ a.spacing)) (hfinite : a.bits < infinityBits) :
    nearestBits num den = a.bits := by
  obtain ⟨hbelow, _⟩ := h.half hden
  have hfull := a.full.resolve_left hspacing
  have hsignificand : a.significand = 2 ^ 52 := by
    by_contra hne
    have hle : (2 ^ 52 + 1) * (den * 2 ^ a.spacing) ≤ a.significand * (den * 2 ^ a.spacing) :=
      Nat.mul_le_mul_right _ (by omega)
    omega
  obtain ⟨s, hs⟩ := Nat.exists_eq_succ_of_ne_zero hspacing
  have hwidth : den * 2 ^ a.spacing = 2 * (den * 2 ^ s) := by
    rw [hs, Nat.succ_eq_add_one, Nat.pow_succ]
    ring
  have hclose := h.low
  rw [units_mul, hsignificand, hwidth] at hclose
  rw [hwidth] at hlow
  have hpos : 0 < den * 2 ^ s := Nat.mul_pos hden (Nat.two_pow_pos s)
  have hbits : a.bits = s * 2 ^ 52 + 2 ^ 53 := by
    rw [Magnitude.bits, hs, hsignificand]
    omega
  have hlog : (num / den).log2 - 52 = s := by
    have hhigh : num / den < 2 ^ (52 + s + 1) := by
      have heq : 2 ^ (52 + s + 1) * den = 2 ^ 53 * (den * 2 ^ s) := by ring
      rw [Nat.div_lt_iff_lt_mul hden, heq]
      omega
    have hle : 2 ^ (52 + s) ≤ num / den := by
      have heq : 2 ^ (52 + s) * den = 2 ^ 52 * (den * 2 ^ s) := by ring
      rw [Nat.le_div_iff_mul_le hden, heq]
      omega
    rw [log2_eq hle hhigh]
    omega
  have hround : roundHalfEven num (den * 2 ^ s) = 2 ^ 53 := by
    refine roundHalfEven_eq ?_ ?_
    · omega
    · omega
  rw [hbits] at hfinite ⊢
  exact nearestBits_of_spacing hlog hround hfinite

/-- A close fraction has the magnitude as its nearest one. -/
theorem nearestBits_eq (h : Close a num den) (hden : 0 < den) (hfinite : a.bits < infinityBits) :
    nearestBits num den = a.bits := by
  by_cases hlow : a.spacing = 0 ∨ 2 ^ 52 * (den * 2 ^ a.spacing) ≤ num
  · exact h.nearestBits_of_not_lt hden hlow hfinite
  · obtain ⟨hspacing, hlt⟩ := not_or.1 hlow
    exact h.nearestBits_of_lt hden hspacing (not_le.1 hlt) hfinite

end Close

/-- Every double is nearest to itself. -/
theorem nearestBits_unitsOfBits {bits : Nat} (h : bits < infinityBits) :
    nearestBits (unitsOfBits bits) 1 = bits := by
  obtain ⟨a, rfl, hunits⟩ := exists_magnitude bits
  have hclose : Close a (unitsOfBits a.bits) 1 := by
    rw [← hunits]
    constructor
    · omega
    · omega
  exact hclose.nearestBits_eq Nat.one_pos h

end ScalarLang.Decimal
