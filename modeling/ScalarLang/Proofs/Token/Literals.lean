import ScalarLang.Proofs.Token.Decimals

/-!
# Runs of digits and points

At a digit or a point the whole run of digits and points is passed. It is a number with the value of
the longest decimal literal that it starts with. It is malformed if there is none, which is so
exactly if the run starts with a point that no digit follows.
-/
namespace ScalarLang

/-! ### Decimal literals -/

/-- Digits, with or without a point and more digits behind them; or a point and at least one digit. -/
inductive DecimalLiteral : List Char → Prop
  | whole {digits : List Char} (hdigits : ∀ c ∈ digits, c.isDigit = true) (hne : digits ≠ []) :
      DecimalLiteral digits
  | point {whole places : List Char} (hwhole : ∀ c ∈ whole, c.isDigit = true) (hne : whole ≠ [])
      (hplaces : ∀ c ∈ places, c.isDigit = true) : DecimalLiteral (whole ++ '.' :: places)
  | places {places : List Char} (hplaces : ∀ c ∈ places, c.isDigit = true) (hne : places ≠ []) :
      DecimalLiteral ('.' :: places)

/-- Whatever the run, the part of it that counts has one of the three shapes. -/
theorem decimalLiteral_of_numberPart? {run part : List Char} (h : numberPart? run = some part) :
    DecimalLiteral part := by
  have hdigits : ∀ text : List Char, ∀ c ∈ text.takeWhile Char.isDigit, c.isDigit = true :=
    fun text c hc => List.mem_takeWhile_imp hc
  have hwhole := hdigits run
  unfold numberPart? at h
  generalize run.takeWhile Char.isDigit = whole at hwhole h
  generalize run.dropWhile Char.isDigit = tail at h
  dsimp only at h
  split at h
  · next rest =>
    have hplaces := hdigits rest
    generalize rest.takeWhile Char.isDigit = places at hplaces h
    cases places with
    | nil => cases h
    | cons d places =>
      cases h
      exact .places hplaces (List.cons_ne_nil _ _)
  · cases h
  · next rest hne =>
    cases h
    exact .point hwhole hne (hdigits rest)
  · next hne _ _ =>
    cases h
    exact .whole hwhole hne

theorem decimalLiteral_iff {text : List Char} : DecimalLiteral text ↔ IsLiteral text := by
  constructor
  · intro h
    cases h with
    | whole hdigits hne => exact isLiteral_of_digits hdigits hne
    | point hwhole hne hplaces => exact isLiteral_of_point hwhole hplaces (by simp [hne])
    | places hplaces hne => exact isLiteral_of_point (List.forall_mem_nil _) hplaces hne
  · intro h
    exact decimalLiteral_of_numberPart? h.numberPart_eq

theorem Longest.decimalLiteral {part rest : List Char} (h : Longest IsLiteral part rest) :
    Longest DecimalLiteral part rest where
  holds := decimalLiteral_iff.2 h.holds
  longest other hother hliteral := h.longest other hother (decimalLiteral_iff.1 hliteral)

/-- A run starts with no decimal literal exactly if it starts with a point that no digit follows. -/
theorem Numberlike.no_literal_iff {run : List Char} (h : Numberlike run) :
    (∀ part, part <+: run → ¬ DecimalLiteral part) ↔
      ∃ tail, run = '.' :: tail ∧ ∀ d, tail.head? = some d → d.isDigit = false := by
  obtain ⟨hne, hrun⟩ := h
  constructor
  · intro hnone
    obtain ⟨x, tail, rfl⟩ := List.exists_cons_of_ne_nil hne
    have hx : x = '.' := by
      by_contra hpoint
      have hdigit := isDigit_of_isNumeric (hrun x (List.mem_cons_self ..)) hpoint
      exact hnone [x] ⟨tail, rfl⟩
        (.whole (List.forall_mem_singleton.2 hdigit) (List.cons_ne_nil _ _))
    subst hx
    refine ⟨tail, rfl, fun d hd => ?_⟩
    obtain ⟨more, rfl⟩ := List.head?_eq_some_iff.1 hd
    by_contra hdigit
    exact hnone ['.', d] ⟨more, rfl⟩
      (.places (List.forall_mem_singleton.2 (by simpa using hdigit)) (List.cons_ne_nil _ _))
  · rintro ⟨tail, rfl, hstop⟩ part hpart hliteral
    refine not_isLiteral_of_point (fun d hd => ?_) hpart (decimalLiteral_iff.1 hliteral)
    have hnumeric := hrun d (List.mem_cons_of_mem _ (List.mem_of_head? hd))
    by_contra hpoint
    have hdigit := isDigit_of_isNumeric hnumeric hpoint
    rw [hstop d hd] at hdigit
    cases hdigit

/-! ### Reading at a digit or a point -/

namespace Cursor

variable {c : Cursor} {x : Char}

/-- Where no gap is left, the next item is that at the pending character. -/
theorem next_of_gapFree (h : GapFree c.text) :
    c.next = (⟨c.item.1, c.item.2.1⟩, c.item.2.2) := by
  have hgap : c.passGap = ([], c) := by
    obtain ⟨file, text, place⟩ := c
    cases text with
    | nil => rfl
    | cons x rest =>
      obtain ⟨hblank, hhash⟩ := h x rfl
      simp only [passGap, ScalarLang.passGap, hblank, hhash, Bool.false_eq_true, if_false]
  simp only [next, hgap, List.nil_append]

theorem next_of_numeric {tail : List Char} (htext : c.text = x :: tail)
    (hx : isNumeric x = true) :
    let run := c.text.takeWhile isNumeric
    let found := numberItem run c.location
    c.next = (⟨found.1, found.2⟩, c.skip run.length) := by
  intro run found
  have hfree : GapFree c.text := by
    have hone : Numberlike [x] := ⟨List.cons_ne_nil _ _, List.forall_mem_singleton.2 hx⟩
    rw [htext]
    exact hone.gapFree tail
  have hitem : c.item = (found.1, found.2, c.skip run.length) := by
    have halpha : x.isAlpha = false := isAlpha_of_isNumeric hx
    simp only [item, run, found, htext, halpha, hx, Bool.false_eq_true, if_false, if_true]
  rw [next_of_gapFree hfree, hitem]

/-- Wherever a digit or a point is pending, reading passes exactly the longest run of digits and
points. If the run starts with a decimal literal, it is a number with the value of the longest one;
what that leaves of the run is noticed. If it starts with none, it is malformed, and that happens
exactly if it starts with a point that no digit follows. -/
theorem run_means_its_longest_literal (hpending : c.text.head? = some x)
    (hx : x.isDigit = true ∨ x = '.') :
    let run := c.text.takeWhile isNumeric
    let rest := c.text.dropWhile isNumeric
    let fault : Malformed := ⟨String.ofList run, c.location⟩
    (c.text = run ++ rest ∧ Longest Numberlike run rest ∧ (c.skip run.length).text = rest) ∧
    ((∃ part, part <+: run ∧ DecimalLiteral part) →
      ∃ part left, run = part ++ left ∧ Longest DecimalLiteral part left ∧
        c.next = (⟨if left = [] then []
            else [.shortened (String.ofList run) c.location (String.ofList part)],
          .token ⟨.number (Decimal.literalValue part), String.ofList run, c.location⟩⟩,
          c.skip run.length)) ∧
    ((∀ part, part <+: run → ¬ DecimalLiteral part) →
      c.next = (⟨[], .malformed fault⟩, c.skip run.length) ∧
        fault.diagnostic.code = some "L003") ∧
    ((∃ found, c.next.1.item = .malformed found) ↔
      ∃ tail, run = '.' :: tail ∧ ∀ d, tail.head? = some d → d.isDigit = false) := by
  intro run rest fault
  obtain ⟨tail, htext⟩ := List.head?_eq_some_iff.1 hpending
  have hnumeric : isNumeric x = true := by simpa [isNumeric] using hx
  have hlongest : Longest Numberlike run rest := by
    simp only [run, rest, htext]
    exact longest_takeWhile (fun _ h => h.2) (numberlike_takeWhile hnumeric)
  have hsplit : c.text = run ++ rest := List.takeWhile_append_dropWhile.symm
  have hrest : (c.skip run.length).text = rest := by
    rw [text_skip, hsplit, List.drop_left]
  have hnext : c.next = (⟨(numberItem run c.location).1, (numberItem run c.location).2⟩,
      c.skip run.length) := next_of_numeric htext hnumeric
  have hstarts := hlongest.holds.no_literal_iff
  refine ⟨⟨hsplit, hlongest, hrest⟩, ?_⟩
  clear_value run
  rcases numberPart?_cases hlongest.holds.2 with ⟨part, left, rfl, hpart, hcounts⟩ | ⟨hcounts, hno⟩
  · have hliteral := hpart.decimalLiteral
    have hprefix : part <+: part ++ left := List.prefix_append part left
    refine ⟨fun _ => ⟨part, left, rfl, hliteral, ?_⟩, fun h => ?_, ?_⟩
    · rw [hnext, numberItem, hcounts]
      simp
    · exact absurd hliteral.holds (h part hprefix)
    · rw [← hstarts, hnext, numberItem, hcounts]
      constructor
      · rintro ⟨found, hfound⟩
        cases hfound
      · intro h
        exact absurd hliteral.holds (h part hprefix)
  · have hnone : ∀ part, part <+: run → ¬ DecimalLiteral part :=
      fun part hpart h => hno part hpart (decimalLiteral_iff.1 h)
    have hmalformed : c.next = (⟨[], .malformed fault⟩, c.skip run.length) := by
      rw [hnext, numberItem, hcounts]
    refine ⟨?_, fun _ => ⟨hmalformed, rfl⟩, ?_⟩
    · rintro ⟨part, hpart, h⟩
      exact absurd h (hnone part hpart)
    · rw [← hstarts, hmalformed]
      exact ⟨fun _ => hnone, fun _ => ⟨fault, rfl⟩⟩

/-- A literal that a second point ends, and two points in front of a digit. -/
theorem run_means_its_longest_literal_two_points :
    (let c := between "" [] "1.2.3 7".toList
    (c.text.head? = some '1' ∧ '1'.isDigit = true) ∧
      ∃ part left, "1.2.3".toList = part ++ left ∧ Longest DecimalLiteral part left ∧
        c.next = (⟨if left = [] then [] else [.shortened "1.2.3" c.location (String.ofList part)],
          .token ⟨.number (Decimal.literalValue part), "1.2.3", c.location⟩⟩, c.skip 5)) ∧
    let c := between "" [] "..5x".toList
    c.text.head? = some '.' ∧ c.next = (⟨[], .malformed ⟨"..5", c.location⟩⟩, c.skip 3) := by
  constructor
  · intro c
    have hdigit : '1'.isDigit = true := rfl
    have hone : DecimalLiteral ['1'] :=
      .whole (List.forall_mem_singleton.2 hdigit) (List.cons_ne_nil _ _)
    obtain ⟨_, hnumber, _⟩ :=
      run_means_its_longest_literal (c := c) (x := '1') rfl (.inl hdigit)
    exact ⟨⟨rfl, hdigit⟩, hnumber ⟨['1'], ⟨['.', '2', '.', '3'], rfl⟩, hone⟩⟩
  · intro c
    have hrun : Numberlike ['.', '.', '5'] :=
      ⟨List.cons_ne_nil _ _, List.all_eq_true.1 (show ['.', '.', '5'].all isNumeric = true from rfl)⟩
    obtain ⟨_, _, hmalformed, _⟩ :=
      run_means_its_longest_literal (c := c) (x := '.') rfl (.inr rfl)
    refine ⟨rfl, (hmalformed (hrun.no_literal_iff.2 ⟨['.', '5'], rfl, ?_⟩)).1⟩
    rintro d hd
    cases hd
    rfl

end Cursor
end ScalarLang
