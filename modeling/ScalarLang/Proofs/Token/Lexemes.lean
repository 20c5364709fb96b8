import ScalarLang.Token.Scan
import Mathlib.Data.List.TakeWhile

/-!
# The items of a source

Reading items comes to the end of the source, once, and every name that is read is one.
-/
namespace ScalarLang

/-- The last item is the end of the input, and no other is. -/
def EndsOnce : List Lexeme → Prop
  | [] => False
  | lexeme :: rest => if lexeme.item.isEnd then rest = [] else EndsOnce rest

/-- A token that is a name has one. -/
def Token.Named (t : Token) : Prop := ∀ name, t.kind = .identifier name → name ≠ ""

/-! ### One item -/

theorem length_passGap_le (file : String) (start : Option Location) (text : List Char)
    (p : Place) : (passGap file start text p).2.1.length ≤ text.length := by
  fun_induction passGap file start text p with
  | case1 => simp
  | case2 => simp
  | case3 c rest p _ ih => exact Nat.le_succ_of_le ih
  | case4 rest p _ ih => exact Nat.le_succ_of_le ih
  | case5 => simp
  | case6 start c rest p _ notes after h ih =>
    rw [h] at ih
    exact Nat.le_succ_of_le ih
  | case7 start c rest p _ ih => exact Nat.le_succ_of_le ih

theorem Cursor.length_text_passGap_le (c : Cursor) : c.passGap.2.text.length ≤ c.text.length :=
  length_passGap_le c.file none c.text c.place

theorem length_takeWhile_pos {x : Char} {rest : List Char} {p : Char → Bool} (h : p x = true) :
    0 < ((x :: rest).takeWhile p).length := by
  rw [List.takeWhile_cons_of_pos h]
  exact Nat.succ_pos _

theorem named_wordKind {word : List Char} (h : 0 < word.length) (location : Option Location) :
    Token.Named ⟨wordKind (String.ofList word), String.ofList word, location⟩ := by
  intro name hname
  have hword : name = String.ofList word := by
    simp only [wordKind] at hname
    split at hname
    · cases hname
    · split at hname
      · cases hname
      · cases hname
        rfl
  rintro rfl
  have hlength := congrArg String.length hword
  simp at hlength
  omega

theorem isEnd_wordKind (word lexeme : String) (location : Option Location) :
    (Item.token ⟨wordKind word, lexeme, location⟩).isEnd = false := by
  simp only [Item.isEnd, Token.isEnd, wordKind]
  split
  · next h =>
    split at h
    · cases h
    · split at h
      · cases h
      · cases h
  · rfl

theorem numberItem_spec (run : List Char) (location : Location) :
    (numberItem run location).2.isEnd = false ∧
      ∀ t, (numberItem run location).2 = .token t → t.Named := by
  unfold numberItem
  cases numberPart? run with
  | none => exact ⟨rfl, fun t ht => by cases ht⟩
  | some part =>
    refine ⟨rfl, fun t ht name hname => ?_⟩
    cases ht
    cases hname

theorem Cursor.length_text_skip_lt {c : Cursor} {x : Char} {rest : List Char} {n : Nat}
    (h : c.text = x :: rest) (hn : 0 < n) : (c.skip n).text.length < (x :: rest).length := by
  rw [text_skip, h, List.length_drop, List.length_cons]
  omega

/-- The end of the text is an item of its own, and every other item takes at least a character. -/
theorem Cursor.item_cases (c : Cursor) :
    (c.text = [] ∧ c.item.2.1 = .token ⟨.eof, "", c.location⟩) ∨
    (c.item.2.2.text.length < c.text.length ∧ c.item.2.1.isEnd = false ∧
      ∀ t, c.item.2.1 = .token t → t.Named) := by
  cases htext : c.text with
  | nil => exact Or.inl ⟨rfl, by simp only [item, htext]⟩
  | cons x rest =>
    right
    simp only [item, htext]
    split
    · next halpha =>
      have hpos : 0 < ((x :: rest).takeWhile Char.isAlphanum).length :=
        length_takeWhile_pos (by simp [Char.isAlphanum, halpha])
      refine ⟨length_text_skip_lt htext hpos, isEnd_wordKind _ _ _, fun t ht => ?_⟩
      cases ht
      exact named_wordKind hpos _
    · split
      · next hnumeric =>
        exact ⟨length_text_skip_lt htext (length_takeWhile_pos hnumeric), numberItem_spec _ _⟩
      · refine ⟨?_, rfl, fun t ht name hname => ?_⟩
        · simp [htext]
        · cases ht
          cases hname

/-! ### All items -/

theorem Cursor.next_cases (c : Cursor) :
    (c.next.1.item.isEnd = true ∧ ∀ t, c.next.1.item = .token t → t.Named) ∨
    (c.next.2.text.length < c.passGap.2.text.length ∧ c.next.1.item.isEnd = false ∧
      ∀ t, c.next.1.item = .token t → t.Named) := by
  rcases c.passGap.2.item_cases with ⟨_, hitem⟩ | hitem
  · left
    change (c.passGap.2.item.2.1).isEnd = true ∧ ∀ t, c.passGap.2.item.2.1 = .token t → t.Named
    rw [hitem]
    refine ⟨rfl, fun t ht name hname => ?_⟩
    cases ht
    cases hname
  · exact Or.inr hitem

theorem endsOnce_lexemesFrom {fuel : Nat} {c : Cursor} (h : c.passGap.2.text.length < fuel) :
    EndsOnce (lexemesFrom fuel c) := by
  -- What is left of the text behind the gap bounds the items that are left.
  induction fuel generalizing c with
  | zero => exact absurd h (Nat.not_lt_zero _)
  | succ fuel ih =>
    rw [lexemesFrom]
    rcases c.next_cases with ⟨hend, _⟩ | ⟨hshorter, hend, _⟩
    · simp [hend, EndsOnce]
    · have hgap := c.next.2.length_text_passGap_le
      simp only [hend, Bool.false_eq_true, if_false, EndsOnce]
      exact ih (by omega)

theorem named_lexemesFrom {fuel : Nat} {c : Cursor} :
    ∀ lexeme ∈ lexemesFrom fuel c, ∀ t, lexeme.item = .token t → t.Named := by
  induction fuel generalizing c with
  | zero => simp [lexemesFrom]
  | succ fuel ih =>
    rw [lexemesFrom]
    have hfirst : ∀ t, c.next.1.item = .token t → t.Named := by
      rcases c.next_cases with ⟨_, hnamed⟩ | ⟨_, _, hnamed⟩
      · exact hnamed
      · exact hnamed
    intro lexeme hlexeme
    dsimp only at hlexeme
    split at hlexeme
    · rw [List.mem_singleton.1 hlexeme]
      exact hfirst
    · rcases List.mem_cons.1 hlexeme with rfl | hlexeme
      · exact hfirst
      · exact ih lexeme hlexeme

theorem endsOnce_lexemes (file : String) (source : List Char) : EndsOnce (lexemes file source) := by
  refine endsOnce_lexemesFrom ?_
  have hgap : (Cursor.start file source).passGap.2.text =
      (passGap file none source (Place.start.past ' ' source)).2.1 := rfl
  rw [hgap]
  exact Nat.lt_succ_of_le (length_passGap_le _ _ _ _)

theorem tokensOf_token {rest : List Lexeme} {us : List Token} (notes : List Note) (t : Token)
    (h : tokensOf rest = .ok us) : tokensOf (⟨notes, .token t⟩ :: rest) = .ok (t :: us) := by
  rw [tokensOf, h]
  rfl

/-! ### Words and the end -/

/-- A text that is read as one name: letters and digits, at least one of them. -/
def IsWord (name : String) : Prop := name ≠ "" ∧ ∀ c ∈ name.toList, c.isAlphanum = true

theorem isWord_takeWhile {x : Char} {rest : List Char} (h : x.isAlphanum = true) :
    IsWord (String.ofList ((x :: rest).takeWhile Char.isAlphanum)) := by
  have hpos : 0 < ((x :: rest).takeWhile Char.isAlphanum).length := length_takeWhile_pos h
  constructor
  · intro hempty
    have hlength := congrArg String.length hempty
    simp only [String.length_ofList, String.length_empty] at hlength
    omega
  · intro c hc
    rw [String.toList_ofList] at hc
    exact List.mem_takeWhile_imp hc

theorem Cursor.isWord_of_item {c : Cursor} {t : Token} {name : String}
    (h : c.item.2.1 = .token t) (hkind : t.kind = .identifier name) : IsWord name := by
  cases htext : c.text with
  | nil =>
    simp only [item, htext] at h
    cases h
    cases hkind
  | cons x rest =>
    simp only [item, htext] at h
    split at h
    · next halpha =>
      cases h
      simp only [wordKind] at hkind
      split at hkind
      · cases hkind
      · split at hkind
        · cases hkind
        · cases hkind
          exact isWord_takeWhile (by simp [Char.isAlphanum, halpha])
    · split at h
      · unfold numberItem at h
        cases hpart : numberPart? ((x :: rest).takeWhile isNumeric) with
        | none =>
          rw [hpart] at h
          cases h
        | some part =>
          rw [hpart] at h
          cases h
          cases hkind
      · cases h
        cases hkind

theorem item_of_mem_lexemesFrom {fuel : Nat} {c : Cursor} {lexeme : Lexeme}
    (h : lexeme ∈ lexemesFrom fuel c) : ∃ there : Cursor, lexeme.item = there.item.2.1 := by
  induction fuel generalizing c with
  | zero => cases h
  | succ fuel ih =>
    rw [lexemesFrom] at h
    dsimp only at h
    split at h
    · rw [List.mem_singleton.1 h]
      exact ⟨c.passGap.2, rfl⟩
    · rcases List.mem_cons.1 h with rfl | h
      · exact ⟨c.passGap.2, rfl⟩
      · exact ih h

/-- Every name in a source is a word. -/
theorem isWord_of_mem_lexemes {file : String} {source : List Char} {notes : List Note} {t : Token}
    {name : String} (h : ⟨notes, .token t⟩ ∈ lexemes file source)
    (hkind : t.kind = .identifier name) : IsWord name := by
  obtain ⟨c, hc⟩ := item_of_mem_lexemesFrom h
  exact c.isWord_of_item hc.symm hkind

theorem EndsOnce.getLast?_eq {items : List Lexeme} (h : EndsOnce items) {notes : List Note}
    {t : Token} (hmem : ⟨notes, .token t⟩ ∈ items) (ht : t.isEnd = true) :
    items.getLast? = some ⟨notes, .token t⟩ := by
  induction items with
  | nil => cases hmem
  | cons lexeme rest ih =>
    unfold EndsOnce at h
    split at h
    · subst h
      rw [List.mem_singleton.1 hmem]
      rfl
    · next hopen =>
      rcases List.mem_cons.1 hmem with rfl | hmem
      · exact absurd ht hopen
      · have hlast := ih h hmem
        rw [List.getLast?_cons, hlast]
        rfl

theorem Lexeme.exists_token_of_isEnd (l : Lexeme) (h : l.item.isEnd = true) :
    ∃ notes stop, l = ⟨notes, .token stop⟩ ∧ stop.isEnd = true := by
  obtain ⟨notes, item⟩ := l
  cases item with
  | token stop => exact ⟨notes, stop, rfl, h⟩
  | malformed fault => cases h

theorem EndsOnce.exists_last {items : List Lexeme} (h : EndsOnce items) :
    ∃ front notes stop, items = front ++ [⟨notes, .token stop⟩] ∧ stop.isEnd = true := by
  induction items with
  | nil => exact h.elim
  | cons l rest ih =>
    unfold EndsOnce at h
    split at h
    · next hend =>
      obtain ⟨notes, stop, rfl, hstop⟩ := l.exists_token_of_isEnd hend
      exact ⟨[], notes, stop, by rw [h]; rfl, hstop⟩
    · obtain ⟨front, notes, stop, rfl, hstop⟩ := ih h
      exact ⟨l :: front, notes, stop, rfl, hstop⟩

end ScalarLang
