import ScalarLang.Decimal.Literal
import ScalarLang.Decimal.Written
import ScalarLang.Proofs.Decimal.Double
import ScalarLang.Proofs.Decimal.Shortest

/-!
# Numbers are read back from their texts

What is written of a number spells a decimal: digits with at most one point among them, and perhaps
a power of ten. The double nearest to that decimal is the number again, however it was written.
-/
namespace ScalarLang.Decimal

/-! ### Rows of digits -/

/-- Digits and nothing else. -/
def IsRow (digits : List Char) : Prop := ∀ c ∈ digits, c.isDigit = true

theorem IsRow.append {left right : List Char} (hleft : IsRow left) (hright : IsRow right) :
    IsRow (left ++ right) := by
  intro c hc
  rcases List.mem_append.1 hc with h | h
  · exact hleft c h
  · exact hright c h

theorem isRow_toDigits (n : Nat) : IsRow (Nat.toDigits 10 n) := fun _ hc =>
  Nat.isDigit_of_mem_toDigits (by decide) (by decide) hc

theorem isRow_zeros (count : Nat) : IsRow (zeros count) := by
  intro c hc
  rw [List.eq_of_mem_replicate hc]
  rfl

theorem IsRow.ne {digits : List Char} (h : IsRow digits) {mark : Char}
    (hmark : mark.isDigit = false) : ∀ c ∈ digits, (c != mark) = true := by
  intro c hc
  rw [bne_iff_ne]
  rintro rfl
  rw [h c hc] at hmark
  cases hmark

theorem digitsValue_eq_ofDigitChars (digits : List Char) :
    digitsValue digits = Nat.ofDigitChars 10 digits 0 := rfl

@[simp] theorem digitsValue_toDigits (n : Nat) : digitsValue (Nat.toDigits 10 n) = n :=
  Nat.ofDigitChars_ten_toDigits

theorem digitsValue_zeros_append (count : Nat) (digits : List Char) :
    digitsValue (zeros count ++ digits) = digitsValue digits := by
  rw [digitsValue_eq_ofDigitChars, Nat.ofDigitChars_append, zeros, Nat.ofDigitChars_replicate_zero,
    Nat.mul_zero, digitsValue_eq_ofDigitChars]

theorem digitsValue_append_zeros (digits : List Char) (count : Nat) :
    digitsValue (digits ++ zeros count) = digitsValue digits * 10 ^ count := by
  rw [digitsValue_eq_ofDigitChars, Nat.ofDigitChars_append, zeros, Nat.ofDigitChars_replicate_zero,
    digitsValue_eq_ofDigitChars, Nat.mul_comm]

/-! ### The number that a text spells -/

/-- Digits with at most one point: all of them as a number, and how many stand after the point. -/
def mantissaValue (text : List Char) : Nat × Nat :=
  let places := (text.dropWhile (· != '.')).drop 1
  (digitsValue (text.takeWhile (· != '.') ++ places), places.length)

def exponentValue : List Char → Int
  | '-' :: digits => -digitsValue digits
  | _ :: digits => digitsValue digits
  | [] => 0

/-- The bits of the double nearest to the decimal that a text spells. -/
def bitsOfText (text : List Char) : Nat :=
  let mantissa := mantissaValue (text.takeWhile (· != 'e'))
  bitsOfDecimal mantissa.1 (exponentValue ((text.dropWhile (· != 'e')).drop 1) - mantissa.2)

section Reading

variable {whole places mantissa : List Char}

theorem mantissaValue_row (h : IsRow whole) : mantissaValue whole = (digitsValue whole, 0) := by
  have hfree : ∀ c ∈ whole, (c != '.') = true := h.ne rfl
  have htake := List.takeWhile_eq_self_iff.2 hfree
  have hdrop := List.dropWhile_eq_nil_iff.2 hfree
  unfold mantissaValue
  simp only [htake, hdrop, List.drop_nil, List.append_nil, List.length_nil]

theorem mantissaValue_point (h : IsRow whole) (places : List Char) :
    mantissaValue (whole ++ '.' :: places) = (digitsValue (whole ++ places), places.length) := by
  have hfree : ∀ c ∈ whole, (c != '.') = true := h.ne rfl
  have htake : (whole ++ '.' :: places).takeWhile (· != '.') = whole := by
    rw [List.takeWhile_append_of_pos hfree, List.takeWhile_cons_of_neg (by decide),
      List.append_nil]
  have hdrop : (whole ++ '.' :: places).dropWhile (· != '.') = '.' :: places := by
    rw [List.dropWhile_append_of_pos hfree, List.dropWhile_cons_of_neg (by decide)]
  unfold mantissaValue
  simp only [htake, hdrop, List.drop_succ_cons, List.drop_zero]

theorem bitsOfText_mantissa (h : ∀ c ∈ mantissa, (c != 'e') = true) :
    bitsOfText mantissa =
      bitsOfDecimal (mantissaValue mantissa).1 (0 - (mantissaValue mantissa).2) := by
  have htake := List.takeWhile_eq_self_iff.2 h
  have hdrop := List.dropWhile_eq_nil_iff.2 h
  unfold bitsOfText
  simp only [htake, hdrop, List.drop_nil, exponentValue]

theorem bitsOfText_exponent (h : ∀ c ∈ mantissa, (c != 'e') = true) (exponent : List Char) :
    bitsOfText (mantissa ++ 'e' :: exponent) =
      bitsOfDecimal (mantissaValue mantissa).1
        (exponentValue exponent - (mantissaValue mantissa).2) := by
  have htake : (mantissa ++ 'e' :: exponent).takeWhile (· != 'e') = mantissa := by
    rw [List.takeWhile_append_of_pos h, List.takeWhile_cons_of_neg (by decide), List.append_nil]
  have hdrop : (mantissa ++ 'e' :: exponent).dropWhile (· != 'e') = 'e' :: exponent := by
    rw [List.dropWhile_append_of_pos h, List.dropWhile_cons_of_neg (by decide)]
  unfold bitsOfText
  simp only [htake, hdrop, List.drop_succ_cons, List.drop_zero]

theorem exponentValue_exponentText (exponent : Int) :
    exponentValue (exponentText exponent) = exponent := by
  unfold exponentText
  dsimp only
  by_cases h : exponent < 0
  · rw [if_pos h, List.cons_append, exponentValue, digitsValue_zeros_append, digitsValue_toDigits]
    omega
  · rw [if_neg h, List.cons_append, exponentValue, digitsValue_zeros_append, digitsValue_toDigits]
    · omega
    · decide

end Reading

/-! ### The two ways to write a decimal -/

section Layouts

variable {digits : List Char}

/-- The point of a decimal stands between digits, or zeros fill the gap up to it. -/
theorem positional_cases (h : IsRow digits) (point : Int) :
    ∃ (whole places : List Char) (k : Nat), IsRow whole ∧ IsRow places ∧ whole ≠ [] ∧
      positional digits point = whole ++ '.' :: places ∧
      digitsValue (whole ++ places) = digitsValue digits * 10 ^ k ∧
      (places.length : Int) = digits.length - point + k := by
  unfold positional
  split
  · next hpoint =>
    refine ⟨['0'], zeros (-point).toNat ++ digits, 0, isRow_zeros 1, (isRow_zeros _).append h,
      by simp, rfl, ?_, ?_⟩
    · have hzeros : ['0'] ++ (zeros (-point).toNat ++ digits) =
          zeros 1 ++ (zeros (-point).toNat ++ digits) := rfl
      rw [hzeros, digitsValue_zeros_append, digitsValue_zeros_append, Nat.pow_zero, Nat.mul_one]
    · rw [List.length_append, zeros, List.length_replicate]
      omega
  · next hpoint =>
    split
    · next hlt =>
      refine ⟨digits.take point.toNat, digits.drop point.toNat, 0,
        fun c hc => h c (List.mem_of_mem_take hc), fun c hc => h c (List.mem_of_mem_drop hc), ?_,
        rfl, ?_, ?_⟩
      · rw [← List.length_pos_iff, List.length_take]
        omega
      · rw [List.take_append_drop, Nat.pow_zero, Nat.mul_one]
      · rw [List.length_drop]
        omega
    · next hge =>
      refine ⟨digits ++ zeros (point.toNat - digits.length), ['0'],
        point.toNat - digits.length + 1, h.append (isRow_zeros _), isRow_zeros 1, ?_, ?_, ?_, ?_⟩
      · rw [← List.length_pos_iff, List.length_append, zeros, List.length_replicate]
        omega
      · rw [List.append_assoc]
      · have hzeros : digits ++ zeros (point.toNat - digits.length) ++ ['0'] =
            digits ++ zeros (point.toNat - digits.length + 1) := by
          rw [List.append_assoc, zeros, zeros, List.replicate_succ']
        rw [hzeros, digitsValue_append_zeros]
      · rw [List.length_singleton]
        omega

theorem bitsOfText_positional (h : IsRow digits) (point : Int) :
    bitsOfText (positional digits point) =
      bitsOfDecimal (digitsValue digits) (point - digits.length) := by
  obtain ⟨whole, places, k, hwhole, hplaces, _, htext, hvalue, hlength⟩ := positional_cases h point
  have hfree : ∀ c ∈ whole ++ '.' :: places, (c != 'e') = true := by
    intro c hc
    rcases List.mem_append.1 hc with hc | hc
    · exact hwhole.ne rfl c hc
    · rcases List.mem_cons.1 hc with rfl | hc
      · rfl
      · exact hplaces.ne rfl c hc
  rw [htext, bitsOfText_mantissa hfree, mantissaValue_point hwhole, hvalue, bitsOfDecimal_mul_pow]
  congr 1
  omega

/-- The digits in front of the power of ten have a point if there are several. -/
theorem scientific_cases {first : Char} {rest : List Char} (h : IsRow (first :: rest))
    (point : Int) :
    ∃ mantissa, scientific (first :: rest) point =
        first :: mantissa ++ 'e' :: exponentText (point - 1) ∧
      mantissaValue (first :: mantissa) = (digitsValue (first :: rest), rest.length) ∧
      ∀ c ∈ mantissa, c.isDigit = true ∨ c = '.' := by
  have hfirst : IsRow [first] := by
    intro c hc
    rw [List.mem_singleton.1 hc]
    exact h first List.mem_cons_self
  cases rest with
  | nil => exact ⟨[], rfl, mantissaValue_row hfirst, by simp⟩
  | cons second rest =>
    refine ⟨'.' :: second :: rest, rfl, mantissaValue_point hfirst _, ?_⟩
    intro c hc
    rcases List.mem_cons.1 hc with rfl | hc
    · exact Or.inr rfl
    · exact Or.inl (h c (List.mem_cons_of_mem _ hc))

theorem bitsOfText_scientific (h : IsRow digits) (hne : digits ≠ []) (point : Int) :
    bitsOfText (scientific digits point) =
      bitsOfDecimal (digitsValue digits) (point - digits.length) := by
  obtain ⟨first, rest, rfl⟩ := List.exists_cons_of_ne_nil hne
  obtain ⟨mantissa, htext, hvalue, hmarks⟩ := scientific_cases h point
  have hfree : ∀ c ∈ first :: mantissa, (c != 'e') = true := by
    intro c hc
    rw [bne_iff_ne]
    rintro rfl
    rcases List.mem_cons.1 hc with hfirst | hc
    · exact absurd (h first List.mem_cons_self) (by rw [← hfirst]; decide)
    · exact absurd (hmarks 'e' hc) (by decide)
  rw [htext, bitsOfText_exponent hfree, hvalue, exponentValue_exponentText]
  congr 1
  rw [List.length_cons, Nat.cast_add, Nat.cast_one]
  omega

end Layouts

/-! ### The characters of a text -/

/-- What the digits of a number stand among. -/
def marks : List Char := ['.', 'e', '+', '-']

/-- A digit, and then digits and marks. -/
inductive IsNumeral : List Char → Prop
  | mk {first : Char} {rest : List Char} (hfirst : first.isDigit = true)
      (hrest : ∀ c ∈ rest, c.isDigit = true ∨ c ∈ marks) : IsNumeral (first :: rest)

theorem IsNumeral.of_row {digits : List Char} (h : IsRow digits) (hne : digits ≠ []) :
    IsNumeral digits := by
  obtain ⟨first, rest, rfl⟩ := List.exists_cons_of_ne_nil hne
  exact .mk (h first List.mem_cons_self) fun c hc => Or.inl (h c (List.mem_cons_of_mem _ hc))

theorem IsNumeral.append {text rest : List Char} (h : IsNumeral text)
    (hrest : ∀ c ∈ rest, c.isDigit = true ∨ c ∈ marks) : IsNumeral (text ++ rest) := by
  obtain ⟨hfirst, hown⟩ := h
  refine .mk hfirst fun c hc => ?_
  rcases List.mem_append.1 hc with hc | hc
  · exact hown c hc
  · exact hrest c hc

theorem isNumeral_positional {digits : List Char} (h : IsRow digits) (point : Int) :
    IsNumeral (positional digits point) := by
  obtain ⟨whole, places, k, hwhole, hplaces, hne, htext, _, _⟩ := positional_cases h point
  rw [htext]
  refine (IsNumeral.of_row hwhole hne).append fun c hc => ?_
  rcases List.mem_cons.1 hc with rfl | hc
  · exact Or.inr (by decide)
  · exact Or.inl (hplaces c hc)

theorem isNumeral_scientific {digits : List Char} (h : IsRow digits) (hne : digits ≠ [])
    (point : Int) : IsNumeral (scientific digits point) := by
  obtain ⟨first, rest, rfl⟩ := List.exists_cons_of_ne_nil hne
  obtain ⟨mantissa, htext, _, hmarks⟩ := scientific_cases h point
  have hmantissa : IsNumeral (first :: mantissa) := by
    refine .mk (h first List.mem_cons_self) fun c hc => ?_
    rcases hmarks c hc with hdigit | rfl
    · exact Or.inl hdigit
    · exact Or.inr (by decide)
  rw [htext]
  refine hmantissa.append fun c hc => ?_
  rcases List.mem_cons.1 hc with rfl | hc
  · exact Or.inr (by decide)
  · unfold exponentText at hc
    rcases List.mem_cons.1 hc with rfl | hc
    · split
      · exact Or.inr (by decide)
      · exact Or.inr (by decide)
    · exact Or.inl ((isRow_zeros _).append (isRow_toDigits _) c hc)

/-! ### What is written of a number -/

theorem unitsOfBits_zero : unitsOfBits 0 = 0 := by decide

/-- The text of a magnitude stands for its bits. -/
theorem magnitudeText_spec {bits : Nat} (h : bits < infinityBits) (hpos : 0 < unitsOfBits bits) :
    IsNumeral (magnitudeText (unitsOfBits bits)).toList ∧
      bitsOfText (magnitudeText (unitsOfBits bits)).toList = bits := by
  have hbits := bits_of_shortest h hpos
  rw [digitCount] at hbits
  unfold magnitudeText
  dsimp only
  generalize shortest (unitsOfBits bits) = decimal at hbits ⊢
  have hrow := isRow_toDigits decimal.digits
  have hne : Nat.toDigits 10 decimal.digits ≠ [] := Nat.toDigits_ne_nil
  rw [String.toList_ofList]
  split
  · refine ⟨isNumeral_positional hrow _, ?_⟩
    rw [bitsOfText_positional hrow, digitsValue_toDigits, hbits]
  · refine ⟨isNumeral_scientific hrow hne _, ?_⟩
    rw [bitsOfText_scientific hrow hne, digitsValue_toDigits, hbits]

theorem bitsOfText_toDigits (n : Nat) :
    bitsOfText (Nat.toDigits 10 n) = nearestBits (n * unitsOfOne) 1 := by
  have hrow := isRow_toDigits n
  have hplace : ((0 : Nat) : Int) - (0 : Nat) = 0 - (0 : Nat) := by decide
  rw [bitsOfText_mantissa (hrow.ne rfl), mantissaValue_row hrow, digitsValue_toDigits,
    bitsOfDecimal_eq hplace, tenTo_eq, Nat.pow_zero, Nat.mul_one]

theorem full_of_finite {x : Float} {negative : Bool} {units : Nat}
    (h : Double.ofFloat x = .finite negative units) (hpos : 0 < units) :
    full x = signText negative ++ magnitudeText units := by
  unfold full
  rw [h]
  cases units with
  | zero => cases hpos
  | succ units => rfl

theorem signText_of_units {negative : Bool} {bits : Nat} (h : negative = true → bits = 0)
    (hpos : 0 < unitsOfBits bits) : signText negative = "" := by
  cases negative with
  | false => rfl
  | true =>
    rw [h rfl, unitsOfBits_zero] at hpos
    cases hpos

/-- A number that is not negative is written without a sign, and its text stands for its bits. -/
theorem Unsigned.plain_spec {x : Float} {bits : Nat} (h : Unsigned x bits) :
    IsNumeral (plain x).toList ∧ bitsOfText (plain x).toList = bits := by
  obtain ⟨negative, hdouble, hsign⟩ := h.double
  have hnearest := nearestBits_unitsOfBits h.lt
  unfold plain
  rw [hdouble]
  dsimp only
  split
  · next hwhole =>
    have hback : unitsOfBits bits / unitsOfOne * unitsOfOne = unitsOfBits bits :=
      Nat.div_mul_cancel (Nat.dvd_of_mod_eq_zero hwhole.1)
    have hsigned : signText (negative && unitsOfBits bits / unitsOfOne != 0) = "" := by
      cases negative with
      | false => rfl
      | true =>
        rw [hsign rfl, unitsOfBits_zero, Nat.zero_div]
        rfl
    rw [hsigned, String.empty_append, Nat.toString_eq_repr, Nat.toList_repr, bitsOfText_toDigits,
      hback]
    exact ⟨.of_row (isRow_toDigits _) Nat.toDigits_ne_nil, hnearest⟩
  · next hwhole =>
    have hpos : 0 < unitsOfBits bits := by
      by_contra hzero
      rw [Nat.eq_zero_of_not_pos hzero, Nat.zero_mod, Nat.zero_div] at hwhole
      exact hwhole ⟨rfl, by decide⟩
    rw [full_of_finite hdouble hpos, signText_of_units hsign hpos, String.empty_append]
    exact magnitudeText_spec h.lt hpos

theorem beq_of_plain_eq {x y : Float} (hx : x.isFinite = true) (hx0 : 0.0 ≤ x)
    (hy : y.isFinite = true) (hy0 : 0.0 ≤ y) (h : plain x = plain y) : (x == y) = true := by
  obtain ⟨bits, hxbits⟩ := exists_unsigned hx hx0
  obtain ⟨bits', hybits⟩ := exists_unsigned hy hy0
  have hsame : bits = bits' := by
    rw [← hxbits.plain_spec.2, ← hybits.plain_spec.2, h]
  subst hsame
  exact hxbits.beq hybits

end ScalarLang.Decimal
