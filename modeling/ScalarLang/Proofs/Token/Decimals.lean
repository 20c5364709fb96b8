import ScalarLang.Proofs.Token.Layout

/-!
# The value of a run of digits and points

A run of digits and points means what its longest beginning means that is a decimal literal. What
stops a literal is a second point, so a run has no decimal literal at its beginning exactly if it is
empty, a point alone, or starts with two points.
-/
namespace ScalarLang

/-- A literal with a point in it goes on up to the next point. -/
theorem longest_literal {part rest : List Char} (h : IsLiteral part)
    (hstop : ∀ c, rest.head? = some c → c = '.' ∧ '.' ∈ part) : Longest IsLiteral part rest where
  holds := h
  longest other hother hliteral := by
    by_contra hlonger
    have hpart : part <+: other :=
      List.prefix_of_prefix_length_le (List.prefix_append part rest) hother (by omega)
    obtain ⟨more, rfl⟩ := hpart
    obtain ⟨tail, htail⟩ := hother
    rw [List.append_assoc] at htail
    have hrest := List.append_cancel_left htail
    cases more with
    | nil => simp at hlonger
    | cons c more =>
      obtain ⟨rfl, hmem⟩ := hstop c (by rw [← hrest]; rfl)
      have hcount := hliteral.point
      have hfirst := List.count_pos_iff.2 hmem
      rw [List.count_append, List.count_cons_self] at hcount
      omega

/-- Nothing that starts with two points is a decimal literal, and neither is a point alone. -/
theorem not_isLiteral_of_point {rest part : List Char}
    (hstop : ∀ c, rest.head? = some c → c = '.') (hpart : part <+: '.' :: rest) :
    ¬ IsLiteral part := by
  intro h
  obtain ⟨d, hd, hdigit⟩ := h.digit
  have hpoint : ¬ '.'.isDigit = true := by decide
  cases part with
  | nil => cases hd
  | cons first part =>
    obtain ⟨rfl, hrest⟩ := List.cons_prefix_cons.1 hpart
    cases part with
    | nil =>
      rw [List.mem_singleton.1 hd] at hdigit
      exact hpoint hdigit
    | cons second part =>
      obtain ⟨tail, rfl⟩ := hrest
      obtain rfl := hstop second rfl
      have hcount := h.point
      simp only [List.count_cons_self] at hcount
      omega

section Runs

variable {run places rest : List Char}

/-- Behind the digits of a run, and behind more digits, there is at most a point. -/
theorem head?_dropWhile_isDigit (hrun : ∀ c ∈ run, isNumeric c = true) :
    ∀ c, (run.dropWhile Char.isDigit).head? = some c → c = '.' := by
  intro c hc
  have hstop := List.head?_dropWhile_not Char.isDigit run
  rw [hc] at hstop
  have hmem : c ∈ run := (List.dropWhile_sublist _).subset (List.mem_of_head? hc)
  by_contra hpoint
  have hdigit := isDigit_of_isNumeric (hrun c hmem) hpoint
  have hother : c.isDigit = false := hstop
  rw [hdigit] at hother
  cases hother

theorem isLiteral_of_digits {digits : List Char} (hdigits : ∀ c ∈ digits, c.isDigit = true)
    (hne : digits ≠ []) : IsLiteral digits where
  numeric c hc := by simp [isNumeric, hdigits c hc]
  point := by
    have hnone : '.' ∉ digits := by
      intro hmem
      have hdigit := hdigits '.' hmem
      exact absurd hdigit (by decide)
    rw [List.count_eq_zero.2 hnone]
    exact Nat.zero_le 1
  digit := by
    obtain ⟨c, hc⟩ := List.exists_mem_of_ne_nil digits hne
    exact ⟨c, hc, hdigits c hc⟩

theorem isLiteral_of_point {whole places : List Char} (hwhole : ∀ c ∈ whole, c.isDigit = true)
    (hplaces : ∀ c ∈ places, c.isDigit = true) (hne : whole ++ places ≠ []) :
    IsLiteral (whole ++ '.' :: places) := by
  have hdigits : ∀ c ∈ whole ++ places, c.isDigit = true := by
    intro c hc
    rcases List.mem_append.1 hc with hc | hc
    · exact hwhole c hc
    · exact hplaces c hc
  obtain ⟨hnumeric, hpoint, d, hd, hdigit⟩ := isLiteral_of_digits hdigits hne
  have hmem : ∀ c, c ∈ whole ++ '.' :: places ↔ c = '.' ∨ c ∈ whole ++ places := by
    intro c
    simp only [List.mem_append, List.mem_cons]
    tauto
  refine ⟨fun c hc => ?_, ?_, d, (hmem d).2 (Or.inr hd), hdigit⟩
  · rcases (hmem c).1 hc with rfl | hc
    · decide
    · exact hnumeric c hc
  · have hnone : '.' ∉ whole ++ places := by
      intro hc
      exact absurd (hdigits '.' hc) (by decide)
    rw [List.count_append, List.count_cons_self, ← Nat.add_assoc, ← List.count_append,
      List.count_eq_zero.2 hnone]

end Runs

/-- The part of a run that counts is the longest decimal literal that the run starts with. If there
is none, nothing counts. -/
theorem numberPart?_cases {run : List Char} (hrun : ∀ c ∈ run, isNumeric c = true) :
    (∃ part rest, run = part ++ rest ∧ Longest IsLiteral part rest ∧
      numberPart? run = some part) ∨
    (numberPart? run = none ∧ ∀ part, part <+: run → ¬ IsLiteral part) := by
  have hsplit : run.takeWhile Char.isDigit ++ run.dropWhile Char.isDigit = run :=
    List.takeWhile_append_dropWhile
  have hwhole : ∀ c ∈ run.takeWhile Char.isDigit, c.isDigit = true :=
    fun c hc => List.mem_takeWhile_imp hc
  have hhead := head?_dropWhile_isDigit hrun
  unfold numberPart?
  generalize run.takeWhile Char.isDigit = whole at hsplit hwhole ⊢
  generalize run.dropWhile Char.isDigit = tail at hsplit hhead ⊢
  subst hsplit
  cases tail with
  | nil =>
    cases whole with
    | nil =>
      right
      refine ⟨rfl, fun part hpart h => ?_⟩
      obtain ⟨d, hd, _⟩ := h.digit
      rw [List.prefix_nil.1 hpart] at hd
      cases hd
    | cons x whole =>
      left
      exact ⟨x :: whole, [], rfl, .alone (isLiteral_of_digits hwhole (by simp)), rfl⟩
  | cons c tail =>
    obtain rfl := hhead c rfl
    -- The places end at the next point, or at the end of the run.
    have htail : ∀ d ∈ tail, isNumeric d = true := fun d hd => hrun d (by simp [hd])
    have hplaces : ∀ d ∈ tail.takeWhile Char.isDigit, d.isDigit = true :=
      fun d hd => List.mem_takeWhile_imp hd
    have hrest : tail.takeWhile Char.isDigit ++ tail.dropWhile Char.isDigit = tail :=
      List.takeWhile_append_dropWhile
    have hstop := head?_dropWhile_isDigit htail
    generalize htake : tail.takeWhile Char.isDigit = places at hplaces hrest
    generalize tail.dropWhile Char.isDigit = rest at hrest hstop
    have hfound : whole ++ places ≠ [] →
        Longest IsLiteral (whole ++ '.' :: places) rest := by
      intro hne
      exact longest_literal (isLiteral_of_point hwhole hplaces hne)
        fun d hd => ⟨hstop d hd, by simp⟩
    cases whole with
    | cons x whole =>
      left
      exact ⟨x :: whole ++ '.' :: places, rest, by simp [← hrest], hfound (by simp),
        by simp only [htake]⟩
    | nil =>
      cases places with
      | cons d places =>
        left
        exact ⟨'.' :: d :: places, rest, by simp [← hrest], hfound (by simp),
          by simp only [htake]⟩
      | nil =>
        right
        refine ⟨by simp only [htake], fun part hpart => ?_⟩
        rw [← hrest] at hpart
        exact not_isLiteral_of_point hstop hpart

theorem longest_of_numberPart? {run part : List Char} (hrun : ∀ c ∈ run, isNumeric c = true)
    (h : numberPart? run = some part) :
    ∃ rest, run = part ++ rest ∧ Longest IsLiteral part rest := by
  rcases numberPart?_cases hrun with ⟨own, rest, hsplit, hlongest, hown⟩ | ⟨hnone, _⟩
  · cases h.symm.trans hown
    exact ⟨rest, hsplit, hlongest⟩
  · rw [h] at hnone
    cases hnone

theorem numberPart?_of_prefix {run part : List Char} (hrun : ∀ c ∈ run, isNumeric c = true)
    (hpart : part <+: run) (h : IsLiteral part) : ∃ own, numberPart? run = some own := by
  rcases numberPart?_cases hrun with ⟨own, _, _, _, hown⟩ | ⟨_, hnone⟩
  · exact ⟨own, hown⟩
  · exact absurd h (hnone part hpart)

end ScalarLang
