import ScalarLang.Decimal.Shortest
import ScalarLang.Proofs.Decimal.Nearest

/-!
# The shortest decimal reads back

Seventeen digits are close enough to a double for it to be the nearest one, so a decimal is always
found, and the double can be found again from it.
-/
namespace ScalarLang.Decimal

/-! ### Counting digits -/

theorem digitCount_pos (n : Nat) : 0 < digitCount n := Nat.length_toDigits_pos

theorem lt_pow_digitCount (n : Nat) : n < 10 ^ digitCount n :=
  (Nat.length_toDigits_le_iff (by decide) (digitCount_pos n)).1 (le_refl _)

theorem pow_le_of_digitCount {n k : Nat} (hn : 0 < n) (h : digitCount n = k + 1) : 10 ^ k ≤ n := by
  rcases Nat.eq_zero_or_pos k with rfl | hk
  · exact hn
  · by_contra hlt
    have hle := (Nat.length_toDigits_le_iff (by decide) hk).2 (not_le.1 hlt)
    rw [digitCount] at h
    omega

theorem digitCount_mul_ten {n : Nat} (hn : 0 < n) : digitCount (n * 10) = digitCount n + 1 := by
  rw [digitCount, Nat.toDigits_of_base_le (by decide) (by omega), List.length_append,
    Nat.mul_div_cancel n (by decide), digitCount, List.length_singleton]

/-- Dropping zeros divides by a power of ten that counts the dropped digits. -/
theorem dropZeros_spec (fuel n : Nat) :
    ∃ k, n = dropZeros fuel n * 10 ^ k ∧ digitCount n = digitCount (dropZeros fuel n) + k := by
  induction fuel generalizing n with
  | zero => exact ⟨0, by simp [dropZeros], rfl⟩
  | succ fuel ih =>
    rw [dropZeros]
    split
    · next h =>
      obtain ⟨hmod, hne⟩ := h
      obtain ⟨k, hk, hcount⟩ := ih (n / 10)
      have hn : n = n / 10 * 10 := by omega
      refine ⟨k + 1, ?_, ?_⟩
      · rw [Nat.pow_succ, ← Nat.mul_assoc, ← hk]
        exact hn
      · rw [← Nat.add_assoc, ← hcount, ← digitCount_mul_ten (by omega), ← hn]
    · exact ⟨0, by simp, rfl⟩

/-! ### Powers of ten on both sides of a fraction -/

theorem bitsOfDecimal_eq {place : Int} {a b : Nat} (h : (a : Int) - b = place) (digits : Nat) :
    bitsOfDecimal digits place = nearestBits (digits * tenTo a * unitsOfOne) (tenTo b) := by
  unfold bitsOfDecimal
  simp only [tenTo_eq]
  generalize unitsOfOne = one
  cases place with
  | ofNat p =>
    obtain rfl : a = b + p := by
      rw [Int.ofNat_eq_natCast] at h
      omega
    have hnum : digits * 10 ^ (b + p) * one = 10 ^ b * (digits * 10 ^ p * one) := by ring
    have hscale := nearestBits_mul (Nat.pow_pos (n := b) (by decide : 0 < 10))
      (digits * 10 ^ p * one) 1
    rw [Nat.mul_one] at hscale
    rw [hnum, hscale]
  | negSucc p =>
    obtain rfl : b = a + (p + 1) := by
      rw [Int.negSucc_eq] at h
      omega
    have hnum : digits * 10 ^ a * one = 10 ^ a * (digits * one) := by ring
    rw [hnum, Nat.pow_add, nearestBits_mul (Nat.pow_pos (by decide))]

theorem exists_powers (place : Int) :
    ∃ a b : Nat, (a : Int) - b = place ∧
      ∀ units, scaledDown units place = (units * tenTo b, unitsOfOne * tenTo a) := by
  cases place with
  | ofNat p => exact ⟨p, 0, by simp, fun units => by simp [scaledDown, tenTo_eq]⟩
  | negSucc p =>
    refine ⟨0, p + 1, ?_, fun units => by simp [scaledDown, tenTo_eq]⟩
    rw [Int.negSucc_eq]
    omega

theorem bitsOfDecimal_mul_pow (digits k : Nat) (place : Int) :
    bitsOfDecimal (digits * 10 ^ k) place = bitsOfDecimal digits (place + k) := by
  obtain ⟨a, b, hplace, _⟩ := exists_powers place
  have hshift : ((a + k : Nat) : Int) - b = place + k := by
    rw [Nat.cast_add]
    omega
  rw [bitsOfDecimal_eq hplace, bitsOfDecimal_eq hshift]
  simp only [tenTo_eq]
  rw [Nat.mul_assoc digits, ← Nat.pow_add, Nat.add_comm k]

/-- A fraction has a digit in front of the place of its point. -/
theorem le_of_pointOf {num den a b : Nat} (hnum : 0 < num) (hden : 0 < den)
    (h : (a : Int) - b = pointOf num den - 1) : den * 10 ^ a ≤ num * 10 ^ b := by
  unfold pointOf at h
  split at h
  · next hle =>
    obtain ⟨c, hc⟩ := Nat.exists_eq_succ_of_ne_zero (digitCount_pos (num / den)).ne'
    obtain rfl : a = b + c := by omega
    have hpow := pow_le_of_digitCount (Nat.div_pos hle hden) hc
    have hden_le := (Nat.le_div_iff_mul_le hden).1 hpow
    calc den * 10 ^ (b + c) = 10 ^ c * den * 10 ^ b := by ring
      _ ≤ num * 10 ^ b := Nat.mul_le_mul_right _ hden_le
  · have hlt := lt_pow_digitCount ((den - 1) / num)
    generalize digitCount ((den - 1) / num) = c at h hlt
    obtain rfl : b = a + c := by omega
    have hle : den ≤ num * 10 ^ c := by
      have hmul := (Nat.div_lt_iff_lt_mul hnum).1 hlt
      rw [Nat.mul_comm] at hmul
      omega
    calc den * 10 ^ a ≤ num * 10 ^ c * 10 ^ a := Nat.mul_le_mul_right _ hle
      _ = num * 10 ^ (a + c) := by ring

/-! ### What is found -/

section Finding

variable {bits digits : Nat} {place : Int}

theorem unitsOfOne_pos : 0 < unitsOfOne := by decide +kernel

theorem bits_of_readsBack (h : bits < infinityBits)
    (hread : readsBack? (unitsOfBits bits) place = some digits) :
    bitsOfDecimal digits place = bits := by
  unfold readsBack? at hread
  simp only [nearestBits_unitsOfBits h] at hread
  generalize roundHalfEven _ _ = closest at hread
  generalize (if closest = _ then _ else _ : Nat) = other at hread
  split at hread
  · next hsame =>
    rw [← Option.some.inj hread]
    exact eq_of_beq hsame
  · split at hread
    · next hsame =>
      rw [← Option.some.inj hread]
      exact eq_of_beq hsame
    · cases hread

theorem readsBack_seventeen (h : bits < infinityBits) (hpos : 0 < unitsOfBits bits)
    (hplace : place = pointOf (unitsOfBits bits) unitsOfOne - 17) :
    (readsBack? (unitsOfBits bits) place).isSome = true := by
  obtain ⟨a, b, hab, hscaled⟩ := exists_powers place
  obtain ⟨magnitude, hbits, hunits⟩ := exists_magnitude bits
  have hdigit : unitsOfOne * 10 ^ (a + 16) ≤ unitsOfBits bits * 10 ^ b :=
    le_of_pointOf hpos unitsOfOne_pos (by rw [Nat.cast_add]; omega)
  have hden : 0 < unitsOfOne * 10 ^ a := Nat.mul_pos unitsOfOne_pos (Nat.pow_pos (by decide))
  obtain ⟨hbelow, habove⟩ := roundHalfEven_bounds (unitsOfBits bits * 10 ^ b) hden
  have hclose : Close magnitude
      (roundHalfEven (unitsOfBits bits * 10 ^ b) (unitsOfOne * 10 ^ a) * 10 ^ a * unitsOfOne)
      (10 ^ b) := by
    rw [Nat.mul_assoc, Nat.mul_comm (10 ^ a)]
    rw [Nat.pow_add, ← Nat.mul_assoc] at hdigit
    constructor
    · rw [hunits]
      omega
    · rw [hunits]
      omega
  have hfinite : magnitude.bits < infinityBits := hbits.trans_lt h
  have hpow : 0 < 10 ^ b := Nat.pow_pos (by decide)
  have hnearest := hclose.nearestBits_eq hpow hfinite
  have hsame : bitsOfDecimal (roundHalfEven (unitsOfBits bits * 10 ^ b) (unitsOfOne * 10 ^ a))
      place = bits := by
    rw [bitsOfDecimal_eq hab, tenTo_eq, tenTo_eq, hnearest, hbits]
  unfold readsBack?
  simp only [hscaled, tenTo_eq, nearestBits_unitsOfBits h, hsame, beq_self_eq_true, if_true,
    Option.isSome_some]

theorem bits_of_shortest (h : bits < infinityBits) (hpos : 0 < unitsOfBits bits) :
    bitsOfDecimal (shortest (unitsOfBits bits)).digits
      ((shortest (unitsOfBits bits)).point - digitCount (shortest (unitsOfBits bits)).digits) =
      bits := by
  unfold shortest
  dsimp only
  split
  · next own place hfound =>
    obtain ⟨n, _, hn⟩ := List.exists_of_findSome?_eq_some hfound
    obtain ⟨digits, hread, heq⟩ := Option.map_eq_some_iff.1 hn
    obtain ⟨rfl, rfl⟩ := Prod.mk.inj heq
    obtain ⟨k, hk, hcount⟩ := dropZeros_spec 17 digits
    have hbits := bits_of_readsBack h hread
    generalize pointOf (unitsOfBits bits) unitsOfOne - (n + 1) = place at hbits
    have hplace : place + digitCount digits - digitCount (dropZeros 17 digits) = place + k := by
      omega
    rw [hk, bitsOfDecimal_mul_pow] at hbits
    rw [hplace]
    exact hbits
  · next hnone =>
    have hlast := List.findSome?_eq_none_iff.1 hnone 16 (by decide)
    rw [Option.map_eq_none_iff] at hlast
    have hsome := @readsBack_seventeen bits
      (pointOf (unitsOfBits bits) unitsOfOne - (16 + 1)) h hpos (by omega)
    rw [Nat.cast_ofNat] at hlast
    rw [hlast] at hsome
    cases hsome

end Finding

end ScalarLang.Decimal
