import ScalarLang.Operator.Table
import ScalarLang.Proofs.Token.Layout

/-!
# Symbols in a source

A character that is a token of its own is one wherever it stands in a source, unless it stands in a
comment: no gap holds it, and no word or number goes on through it.
-/
namespace ScalarLang

/-- An element of two lists that stand one after the other belongs to the one or to the other. -/
theorem cut_cases {α : Type} {front back before after : List α} {a : α}
    (h : front ++ back = before ++ a :: after) :
    (∃ inner, front = before ++ a :: inner) ∨
      ∃ behind, before = front ++ behind ∧ back = behind ++ a :: after := by
  rcases List.append_eq_append_iff.1 h with ⟨behind, hbefore, hback⟩ | ⟨inner, hfront, htail⟩
  · exact Or.inr ⟨behind, hbefore, hback⟩
  · cases inner with
    | nil => exact Or.inr ⟨[], by simpa using hfront.symm, htail.symm⟩
    | cons own inner =>
      obtain ⟨rfl, _⟩ := List.cons.inj htail
      exact Or.inl ⟨inner, hfront⟩

/-- Behind this text one is in a comment: there is a `#` in its last line. -/
def Commented (text : List Char) : Prop := '#' ∈ text.reverse.takeWhile fun c => !endsLine c

theorem Commented.append_left {text : List Char} (h : Commented text) (front : List Char) :
    Commented (front ++ text) := by
  rw [Commented, List.reverse_append, List.takeWhile_append]
  split
  · exact List.mem_append_left _ (List.takeWhile_subset _ h)
  · exact h

theorem commented_of_open {body : List Char} (hbody : ∀ c ∈ body, endsLine c = false) :
    Commented ('#' :: body) := by
  have hall : ∀ c ∈ ('#' :: body).reverse, (!endsLine c) = true := by
    intro c hc
    rcases List.mem_cons.1 (List.mem_reverse.1 hc) with rfl | hmem
    · decide
    · rw [hbody c hmem]
      rfl
  rw [Commented, List.takeWhile_eq_self_iff.2 hall]
  exact List.mem_reverse.2 (List.mem_cons_self ..)

/-- In a gap only blanks and openings of comments stand outside comments. -/
theorem Gap.commented {gap rest : List Char} (h : Gap gap rest) {before after : List Char}
    {c : Char} (heq : gap = before ++ c :: after) (hblank : Text.isBlank c = false)
    (hhash : c ≠ '#') : Commented before := by
  induction h generalizing before with
  | nil => cases before with
    | nil => cases heq
    | cons => cases heq
  | blank hown _ ih =>
    cases before with
    | nil =>
      cases heq
      rw [hblank] at hown
      cases hown
    | cons own before =>
      cases heq
      exact (ih rfl).append_left [_]
  | @comment body gap rest hbody _ _ ih =>
    cases before with
    | nil =>
      cases heq
      exact absurd rfl hhash
    | cons own before =>
      obtain ⟨rfl, hsplit⟩ := List.cons.inj heq
      rcases cut_cases hsplit with ⟨inner, rfl⟩ | ⟨behind, rfl, hbehind⟩
      · exact commented_of_open fun d hd => hbody d (List.mem_append_left _ hd)
      · exact (ih hbehind).append_left ('#' :: body)

/-- A token that holds such a character is that character. -/
theorem Spells.of_symbol {text rest : List Char} {item : Item} (h : Spells text rest item)
    {c : Char} (hc : IsSymbol c) (hmem : c ∈ text) :
    text = [c] ∧ ∃ location : Option Location,
      item = .token ⟨.symbol (String.singleton c), String.singleton c, location⟩ := by
  have hword : ¬ Longest Wordlike text rest := by
    intro hword
    have halnum := hword.holds.alphanum c hmem
    rw [hc.alphanum] at halnum
    cases halnum
  have hnumber : ¬ Longest Numberlike text rest := by
    intro hnumber
    have hdigit := isDigit_of_isNumeric (hnumber.holds.2 c hmem) hc.point
    have halnum := hc.alphanum
    rw [Char.isAlphanum, hdigit, Bool.or_true] at halnum
    cases halnum
  cases h with
  | define hlongest | external hlongest | identifier hlongest => exact absurd hlongest hword
  | number hlongest | malformed hlongest => exact absurd hlongest hnumber
  | symbol ht =>
    subst ht
    cases List.mem_singleton.1 hmem
    exact ⟨rfl, _, rfl⟩

/-- The induction is on the items: the character stands in the gap before the item at hand, in the
item, or behind it. -/
theorem Segmented.exists_symbol {file : String} {passed text : List Char} {cursor : Cursor}
    {items : List Lexeme} (h : Segmented file passed text cursor items) {before after : List Char}
    {c : Char} (heq : text = before ++ c :: after) (hopen : ¬ Commented before) (hc : IsSymbol c) :
    ∃ lexeme ∈ items, ∃ location,
      lexeme.item = .token ⟨.symbol (String.singleton c), String.singleton c, some location⟩ ∧
        location.offset = (passed ++ before).length := by
  induction h generalizing before with
  | ending hgap => exact absurd (hgap.commented heq hc.blank hc.hash) hopen
  | @item passed gap text rest cursor lexeme later hgap hspells hoffset _ _ ih =>
    rcases cut_cases heq with ⟨inner, hgapped⟩ | ⟨inner, rfl, hinner⟩
    · exact absurd (hgap.commented hgapped hc.blank hc.hash) hopen
    · rcases cut_cases hinner with ⟨more, rfl⟩ | ⟨behind, rfl, hbehind⟩
      · obtain ⟨hone, location, hitem⟩ :=
          hspells.of_symbol hc (List.mem_append_right _ (List.mem_cons_self ..))
        have hstart : inner = [] := by
          have hlength := congrArg List.length hone
          simp only [List.length_append, List.length_cons, List.length_nil] at hlength
          exact List.length_eq_zero_iff.1 (by omega)
        rw [hitem] at hoffset
        obtain ⟨place, rfl, hplace⟩ := Option.map_eq_some_iff.1 hoffset
        refine ⟨lexeme, List.mem_cons_self .., place, hitem, ?_⟩
        rw [hplace, hstart, List.append_nil]
      · have hlater : ¬ Commented behind := by
          intro hlater
          rw [← List.append_assoc] at hopen
          exact hopen (hlater.append_left _)
        obtain ⟨found, hmem, location, hitem, hplace⟩ := ih hbehind hlater
        refine ⟨found, List.mem_cons_of_mem _ hmem, location, hitem, ?_⟩
        rw [hplace, List.append_assoc, List.append_assoc]

/-- Such a character is read as a token of its own, at its place, wherever it stands outside
comments. -/
theorem symbol_is_read (file : String) {before : List Char} {c : Char}
    (hopen : ¬ Commented before) (hc : IsSymbol c) (after : List Char) :
    ∃ lexeme ∈ lexemes file (before ++ c :: after), ∃ location,
      lexeme.item = .token ⟨.symbol (String.singleton c), String.singleton c, some location⟩ ∧
        location.offset = before.length := by
  have hsegmented :
      Segmented file [] (before ++ c :: after) (Cursor.start file (before ++ c :: after))
        (lexemes file (before ++ c :: after)) :=
    segmented_lexemesFrom (Cursor.next_start file _) (Nat.lt_succ_self _)
  exact hsegmented.exists_symbol rfl hopen hc

namespace OperatorTable

theorem isSymbol_of_isOperator {c : Char} (h : isOperator c = true) : IsSymbol c := by
  simp only [isOperator, Bool.and_eq_true, decide_eq_true_eq, Bool.not_eq_eq_eq_not,
    Bool.not_true] at h
  obtain ⟨⟨⟨hlow, hhigh⟩, halnum⟩, hfree⟩ := h
  refine ⟨isBlank_of_visible hlow hhigh, halnum, ?_, ?_⟩
  · rintro rfl
    exact absurd hfree (by decide)
  · rintro rfl
    exact absurd hfree (by decide)

end OperatorTable
end ScalarLang
