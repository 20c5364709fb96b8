import ScalarLang.Proofs.Token.Lexemes
import ScalarLang.Proofs.Unplaced

/-!
# Two sources with a semicolon between them

A line feed ends whatever a source may have broken off in: a name, a number or a comment. So the
items of two sources with a line feed and a semicolon between them are those of the first without
its end, the semicolon, and those of the second, up to their places.
-/
namespace ScalarLang

/-! ### Gaps -/

/-- What is left behind a gap, outside of a comment or in one. -/
def behindGap : Bool → List Char → List Char
  | _, [] => []
  | false, c :: rest =>
    if Text.isBlank c then behindGap false rest
    else if c = '#' then behindGap true rest
    else c :: rest
  | true, c :: rest => behindGap (!endsLine c) rest

theorem passGap_text (file : String) (start : Option Location) (text : List Char) (p : Place) :
    (passGap file start text p).2.1 = behindGap start.isSome text := by
  fun_induction passGap file start text p with
  | case1 => rfl
  | case2 => rfl
  | case3 c rest p hblank ih => simpa [behindGap, hblank] using ih
  | case4 rest p hblank ih => simpa [behindGap, hblank] using ih
  | case5 c rest p hblank hhash => simp [behindGap, hblank, hhash]
  | case6 start c rest p hline notes after h ih =>
    rw [h] at ih
    simpa [behindGap, hline] using ih
  | case7 start c rest p hline ih => simpa [behindGap, hline] using ih

theorem Cursor.text_passGap (c : Cursor) : c.passGap.2.text = behindGap false c.text :=
  passGap_text c.file none c.text c.place

/-- A gap that runs up to the end of the first source is closed by the line feed. -/
theorem behindGap_append (comment : Bool) (text more : List Char) :
    behindGap comment (text ++ '\n' :: ';' :: more) =
      if behindGap comment text = [] then ';' :: more
      else behindGap comment text ++ '\n' :: ';' :: more := by
  induction text generalizing comment with
  | nil =>
    have hblank : Text.isBlank '\n' = true := by decide
    have hline : endsLine '\n' = true := by decide
    have hopen : Text.isBlank ';' = false := by decide
    have hhash : ¬ (';' = '#') := by decide
    cases comment with
    | false => simp [behindGap, hblank, hopen, hhash]
    | true => simp [behindGap, hline, hopen, hhash]
  | cons c rest ih =>
    cases comment with
    | true =>
      rw [List.cons_append, behindGap, behindGap]
      exact ih _
    | false =>
      rw [List.cons_append, behindGap, behindGap]
      split
      · exact ih false
      · split
        · exact ih true
        · simp

/-! ### Items -/

theorem takeWhile_append_of_stop {p : Char → Bool} (text : List Char) {tail : List Char}
    (h : ∀ x, tail.head? = some x → p x = false) :
    (text ++ tail).takeWhile p = text.takeWhile p := by
  induction text with
  | nil =>
    cases tail with
    | nil => rfl
    | cons x rest => simp [h x rfl]
  | cons c rest ih =>
    rw [List.cons_append, List.takeWhile_cons, List.takeWhile_cons, ih]

theorem numberItem_unplaced (run : List Char) (location other : Location) :
    (numberItem run location).2.unplaced = (numberItem run other).2.unplaced := by
  unfold numberItem
  cases numberPart? run with
  | none => rfl
  | some part => rfl

/-- An item does not depend on what comes behind it, if that can be no part of it. -/
theorem Cursor.item_append {c other : Cursor} {x : Char} {rest tail : List Char}
    (hc : c.text = x :: rest) (hother : other.text = x :: rest ++ tail)
    (htail : ∀ y, tail.head? = some y → y.isAlphanum = false ∧ isNumeric y = false) :
    other.item.2.1.unplaced = c.item.2.1.unplaced ∧
      other.item.2.2.text = c.item.2.2.text ++ tail := by
  have hword : (x :: rest ++ tail).takeWhile Char.isAlphanum =
      (x :: rest).takeWhile Char.isAlphanum :=
    takeWhile_append_of_stop _ fun y hy => (htail y hy).1
  have hnumber : (x :: rest ++ tail).takeWhile isNumeric = (x :: rest).takeWhile isNumeric :=
    takeWhile_append_of_stop _ fun y hy => (htail y hy).2
  have hdrop : ∀ p : Char → Bool, (x :: rest ++ tail).drop ((x :: rest).takeWhile p).length =
      (x :: rest).drop ((x :: rest).takeWhile p).length ++ tail := by
    intro p
    exact List.drop_append_of_le_length (List.takeWhile_prefix p).length_le
  simp only [item, hc, hother, hword, hnumber]
  simp only [List.cons_append]
  split
  · exact ⟨rfl, by simp only [text_skip, hc, hother, hdrop]⟩
  · split
    · exact ⟨numberItem_unplaced _ _ _, by simp only [text_skip, hc, hother, hdrop]⟩
    · refine ⟨rfl, ?_⟩
      simp [hc, hother]

theorem Cursor.item_congr {c other : Cursor} (h : other.text = c.text) :
    other.item.2.1.unplaced = c.item.2.1.unplaced ∧ other.item.2.2.text = c.item.2.2.text := by
  cases hc : c.text with
  | nil =>
    rw [hc] at h
    simp only [item, h, hc]
    exact ⟨rfl, trivial⟩
  | cons x rest =>
    have hother : other.text = x :: rest ++ [] := by rw [h, hc, List.append_nil]
    have hitem := item_append hc hother fun y hy => by cases hy
    rw [List.append_nil] at hitem
    exact hitem

theorem Cursor.next_text (c : Cursor) : c.next.2.text = c.passGap.2.item.2.2.text := rfl

theorem Cursor.next_of_nil {c : Cursor} (h : behindGap false c.text = []) :
    c.next.1.item.isEnd = true := by
  have htext : c.passGap.2.text = [] := c.text_passGap.trans h
  change c.passGap.2.item.2.1.isEnd = true
  simp only [item, htext]
  rfl

theorem Cursor.next_of_cons {c : Cursor} {x : Char} {rest : List Char}
    (h : behindGap false c.text = x :: rest) :
    c.next.1.item.isEnd = false ∧ c.next.2.text.length < (behindGap false c.text).length := by
  have htext := c.text_passGap
  rcases c.passGap.2.item_cases with ⟨hnil, _⟩ | ⟨hless, hend, _⟩
  · rw [htext, h] at hnil
    cases hnil
  · rw [htext] at hless
    exact ⟨hend, hless⟩

theorem length_behindGap_le (text : List Char) : (behindGap false text).length ≤ text.length := by
  have hlength := length_passGap_le "" none text .start
  rw [passGap_text] at hlength
  exact hlength

/-- What is read next in front of a juncture, if a gap does not lead up to it. -/
theorem Cursor.next_append {c other : Cursor} {more : List Char}
    (hother : other.text = c.text ++ '\n' :: ';' :: more) (hopen : behindGap false c.text ≠ []) :
    other.next.1.bare = c.next.1.bare ∧
      other.next.2.text = c.next.2.text ++ '\n' :: ';' :: more := by
  have hgap := c.text_passGap
  have hbehind : other.passGap.2.text = behindGap false c.text ++ '\n' :: ';' :: more := by
    rw [other.text_passGap, hother, behindGap_append, if_neg hopen]
  have hfeed : '\n'.isAlphanum = false ∧ isNumeric '\n' = false := by decide
  obtain ⟨x, rest, hx⟩ := List.exists_cons_of_ne_nil hopen
  rw [hx] at hgap hbehind
  refine item_append hgap hbehind fun y hy => ?_
  cases hy
  exact hfeed

/-- A gap that leads up to a juncture leads up to the semicolon. -/
theorem Cursor.next_semicolon {c : Cursor} {more : List Char}
    (h : behindGap false c.text = ';' :: more) :
    (∃ location, c.next.1.item = .token ⟨.symbol ";", ";", location⟩) ∧ c.next.2.text = more := by
  have hgap : c.passGap.2.text = ';' :: more := c.text_passGap.trans h
  have hclass : ';'.isAlpha = false ∧ isNumeric ';' = false := by decide
  have hsingle : String.singleton ';' = ";" := by decide
  constructor
  · refine ⟨c.passGap.2.location, ?_⟩
    change c.passGap.2.item.2.1 = _
    simp only [item, hgap, hclass.1, hclass.2, Bool.false_eq_true, if_false, hsingle]
  · rw [next_text]
    simp [item, hgap, hclass.1, hclass.2]

/-! ### All items -/

/-- Which items are left depends on nothing but the text behind the next gap. -/
theorem lexemesFrom_congr {fuel fuel' : Nat} {c other : Cursor}
    (h : behindGap false other.text = behindGap false c.text)
    (hfuel : (behindGap false c.text).length < fuel)
    (hfuel' : (behindGap false c.text).length < fuel') :
    (lexemesFrom fuel' other).map Lexeme.bare = (lexemesFrom fuel c).map Lexeme.bare := by
  induction fuel generalizing fuel' c other with
  | zero => exact absurd hfuel (Nat.not_lt_zero _)
  | succ fuel ih =>
    obtain ⟨fuel', rfl⟩ : ∃ k, fuel' = k + 1 := ⟨fuel' - 1, by omega⟩
    have hgap : other.passGap.2.text = c.passGap.2.text := by
      rw [other.text_passGap, c.text_passGap, h]
    obtain ⟨hitem, htext⟩ := Cursor.item_congr hgap
    have hbare : other.next.1.bare = c.next.1.bare := hitem
    have hend : other.next.1.item.isEnd = c.next.1.item.isEnd := by
      have hunplaced := congrArg Item.isEnd hbare
      simpa [Lexeme.bare] using hunplaced
    have hrest : other.next.2.text = c.next.2.text := htext
    rw [lexemesFrom, lexemesFrom]
    cases hbehind : behindGap false c.text with
    | nil =>
      have hover := Cursor.next_of_nil hbehind
      simp only [hend, hover, if_true, List.map_cons, List.map_nil, hbare]
    | cons x rest =>
      obtain ⟨hopen, hless⟩ := Cursor.next_of_cons hbehind
      have hgo := length_behindGap_le c.next.2.text
      have hlater := @ih fuel' c.next.2 other.next.2 (by rw [hrest]) (by omega) (by omega)
      simp only [hend, hopen, Bool.false_eq_true, if_false, List.map_cons, hbare, hlater]

/-- The items in front of a juncture, the semicolon, and the items behind it. -/
theorem lexemesFrom_append {fuel fuel' : Nat} {c other : Cursor} {more : List Char}
    (hother : other.text = c.text ++ '\n' :: ';' :: more)
    (hfuel : (behindGap false c.text).length < fuel)
    (hfuel' : (behindGap false other.text).length < fuel') :
    ∃ front ending front' notes location beyond,
      lexemesFrom fuel c = front ++ [ending] ∧ ending.item.isEnd = true ∧
      lexemesFrom fuel' other =
        front' ++ ⟨notes, .token ⟨.symbol ";", ";", location⟩⟩ :: beyond ∧
      front'.map Lexeme.bare = front.map Lexeme.bare ∧
      ∀ (last : Cursor) (rounds : Nat), behindGap false last.text = behindGap false more →
        (behindGap false more).length < rounds →
        beyond.map Lexeme.bare = (lexemesFrom rounds last).map Lexeme.bare := by
  induction fuel generalizing fuel' c other with
  | zero => exact absurd hfuel (Nat.not_lt_zero _)
  | succ fuel ih =>
    obtain ⟨fuel', rfl⟩ : ∃ k, fuel' = k + 1 := ⟨fuel' - 1, by omega⟩
    rw [lexemesFrom, lexemesFrom]
    cases hbehind : behindGap false c.text with
    | nil =>
      have hsemicolon : behindGap false other.text = ';' :: more := by
        rw [hother, behindGap_append, if_pos hbehind]
      obtain ⟨⟨location, hitem⟩, htext⟩ := Cursor.next_semicolon hsemicolon
      have hbound := length_behindGap_le more
      rw [hsemicolon, List.length_cons] at hfuel'
      refine ⟨[], c.next.1, [], other.next.1.notes, location, lexemesFrom fuel' other.next.2, ?_,
        Cursor.next_of_nil hbehind, ?_, rfl, fun last rounds hlast hrounds => ?_⟩
      · simp only [Cursor.next_of_nil hbehind, if_true, List.nil_append]
      · have hopen : other.next.1.item.isEnd = false := by rw [hitem]; rfl
        have hnext : other.next.1 = ⟨other.next.1.notes, .token ⟨.symbol ";", ";", location⟩⟩ := by
          rw [← hitem]
        simp only [hopen, Bool.false_eq_true, if_false, List.nil_append]
        rw [← hnext]
      · refine lexemesFrom_congr (by rw [htext, hlast]) ?_ ?_
        · rw [hlast]
          exact hrounds
        · rw [hlast]
          omega
    | cons x rest =>
      have hne : behindGap false c.text ≠ [] := by simp [hbehind]
      obtain ⟨hopen, hless⟩ := Cursor.next_of_cons hbehind
      obtain ⟨hbare, htext⟩ := Cursor.next_append hother hne
      have hend : other.next.1.item.isEnd = false := by
        have hunplaced := congrArg Item.isEnd hbare
        rw [Lexeme.bare, Lexeme.bare, Item.isEnd_unplaced, Item.isEnd_unplaced] at hunplaced
        rw [hunplaced, hopen]
      have hgo := length_behindGap_le c.next.2.text
      have hgo' := length_behindGap_le other.next.2.text
      rw [htext, List.length_append] at hgo'
      rw [hother, behindGap_append, if_neg hne, List.length_append] at hfuel'
      rw [← htext] at hgo'
      obtain ⟨front, ending, front', notes, location, beyond, hfirst, hending, hsecond, hfront,
        hbeyond⟩ := @ih fuel' c.next.2 other.next.2 htext (by omega) (by omega)
      refine ⟨c.next.1 :: front, ending, other.next.1 :: front', notes, location, beyond, ?_,
        hending, ?_, ?_, hbeyond⟩
      · simp only [hopen, Bool.false_eq_true, if_false, hfirst, List.cons_append]
      · simp only [hend, Bool.false_eq_true, if_false, hsecond, List.cons_append]
      · rw [List.map_cons, List.map_cons, hbare, hfront]

/-- The items of two sources with a line feed and a semicolon between them. -/
theorem lexemes_append (file : String) (first second : List Char) :
    ∃ front ending front' notes location beyond,
      lexemes file first = front ++ [ending] ∧ ending.item.isEnd = true ∧
      lexemes file (first ++ '\n' :: ';' :: second) =
        front' ++ ⟨notes, .token ⟨.symbol ";", ";", location⟩⟩ :: beyond ∧
      front'.map Lexeme.bare = front.map Lexeme.bare ∧
      beyond.map Lexeme.bare = (lexemes file second).map Lexeme.bare := by
  have hblank : Text.isBlank ' ' = true := by decide
  have hstart : ∀ source, behindGap false (Cursor.start file source).text =
      behindGap false source := by
    intro source
    simp [Cursor.start, behindGap, hblank]
  have hfirst := length_behindGap_le first
  have hsecond := length_behindGap_le second
  have hwhole := length_behindGap_le (first ++ '\n' :: ';' :: second)
  obtain ⟨front, ending, front', notes, location, beyond, hitems, hending, hboth, hfront,
    hbeyond⟩ := @lexemesFrom_append (first.length + 1)
      ((first ++ '\n' :: ';' :: second).length + 1) (Cursor.start file first)
      (Cursor.start file (first ++ '\n' :: ';' :: second)) second rfl
      (by rw [hstart]; omega) (by rw [hstart]; omega)
  exact ⟨front, ending, front', notes, location, beyond, hitems, hending, hboth, hfront,
    hbeyond (Cursor.start file second) (second.length + 1) (hstart second) (by omega)⟩

end ScalarLang
