import ScalarLang.Proofs.Token.Separators
import ScalarLang.Source.Input

/-!
# Ways to end a line

A source is read as the same items whether its lines end in carriage returns, in line feeds or in
both. A file has only line feeds left when it is read, so it gives what its raw text gives. Where
every carriage return stands in front of a line feed, even lines and columns are the same; offsets
are not, since the text gets shorter.
-/
namespace ScalarLang

/-! ### Texts in parts -/

theorem unifyLines_cons {c : Char} (h : c ≠ '\r') (rest : List Char) :
    unifyLines (c :: rest) = c :: unifyLines rest := by
  rw [unifyLines.eq_3 c rest fun _ hc => absurd hc h, if_neg h]

/-- A text is translated part by part, unless it is cut between the two characters of one end of a
line. -/
theorem unifyLines_append {first : List Char} (second : List Char)
    (h : first.getLast? = some '\r' → second.head? ≠ some '\n') :
    unifyLines (first ++ second) = unifyLines first ++ unifyLines second := by
  fun_induction unifyLines first with
  | case1 => rfl
  | case2 rest ih =>
    have hrest : rest.getLast? = some '\r' → second.head? ≠ some '\n' := by
      intro hlast
      exact h (by simp [List.getLast?_cons, hlast])
    simp only [List.cons_append, unifyLines, ih hrest]
  | case3 c rest hfeed ih =>
    have hrest : rest.getLast? = some '\r' → second.head? ≠ some '\n' := by
      intro hlast
      exact h (by simp [List.getLast?_cons, hlast])
    have hcut : ∀ more, c = '\r' → rest ++ second = '\n' :: more → False := by
      intro more hc hmore
      cases rest with
      | nil => exact h (by simp [hc]) (by rw [List.nil_append] at hmore; simp [hmore])
      | cons d rest =>
        rw [List.cons_append, List.cons.injEq] at hmore
        exact hfeed rest hc (by rw [hmore.1])
    rw [List.cons_append, unifyLines.eq_3 _ _ hcut, ih hrest, List.cons_append]

theorem unifyLines_of_not_mem {text : List Char} (h : '\r' ∉ text) (rest : List Char) :
    unifyLines (text ++ rest) = text ++ unifyLines rest := by
  induction text with
  | nil => rfl
  | cons c text ih =>
    rw [List.mem_cons, not_or] at h
    rw [List.cons_append, unifyLines_cons (Ne.symm h.1), ih h.2, List.cons_append]

theorem unifyLines_ne_nil {text : List Char} (h : text ≠ []) : unifyLines text ≠ [] := by
  fun_cases unifyLines text with
  | case1 => exact absurd rfl h
  | case2 => exact List.cons_ne_nil _ _
  | case3 => exact List.cons_ne_nil _ _

section Runs

variable {p : Char → Bool}

theorem takeWhile_unifyLines (hreturn : p '\r' = false) (hfeed : p '\n' = false)
    (text : List Char) : (unifyLines text).takeWhile p = text.takeWhile p := by
  fun_induction unifyLines text with
  | case1 => rfl
  | case2 rest ih => simp [hreturn, hfeed]
  | case3 c rest _ ih =>
    by_cases hc : c = '\r'
    · simp [hc, hreturn, hfeed]
    · rw [if_neg hc, List.takeWhile_cons, List.takeWhile_cons, ih]

theorem drop_length_takeWhile (text : List Char) :
    text.drop (text.takeWhile p).length = text.dropWhile p := by
  have hcut : (text.takeWhile p ++ text.dropWhile p).drop (text.takeWhile p).length =
      text.dropWhile p := List.drop_left
  rwa [List.takeWhile_append_dropWhile] at hcut

theorem dropWhile_unifyLines (hreturn : p '\r' = false) (hfeed : p '\n' = false)
    (text : List Char) : (unifyLines text).dropWhile p = unifyLines (text.dropWhile p) := by
  fun_induction unifyLines text with
  | case1 => rfl
  | case2 rest ih => simp [hreturn, hfeed, unifyLines]
  | case3 c rest hcut ih =>
    by_cases hp : p c = true
    · have hc : c ≠ '\r' := by
        rintro rfl
        rw [hreturn] at hp
        cases hp
      rw [if_neg hc, List.dropWhile_cons_of_pos hp, List.dropWhile_cons_of_pos hp, ih]
    · rw [List.dropWhile_cons_of_neg hp, unifyLines.eq_3 c rest hcut]
      refine List.dropWhile_cons_of_neg ?_
      split
      · simp [hfeed]
      · exact hp

end Runs

/-! ### Gaps and items -/

theorem endsLine_unified (c : Char) : endsLine (if c = '\r' then '\n' else c) = endsLine c := by
  split
  · next hc => simp [hc, endsLine]
  · rfl

/-- What a comment ends with is blank, so a line feed behind a carriage return is passed with it. -/
theorem behindGap_unifyLines (comment : Bool) (text : List Char) :
    behindGap comment (unifyLines text) = unifyLines (behindGap comment text) := by
  have hblanks : Text.isBlank '\r' = true ∧ Text.isBlank '\n' = true := by decide
  have hlines : endsLine '\r' = true ∧ endsLine '\n' = true := by decide
  fun_induction unifyLines text generalizing comment with
  | case1 => cases comment <;> rfl
  | case2 rest ih =>
    cases comment with
    | false => simp [behindGap, hblanks, ih]
    | true => simp [behindGap, hblanks, hlines, ih]
  | case3 c rest hcut ih =>
    cases comment with
    | true => simp only [behindGap, endsLine_unified, ih]
    | false =>
      by_cases hc : c = '\r'
      · simp [behindGap, hc, hblanks, ih]
      · simp only [behindGap, if_neg hc]
        split
        · exact ih false
        · split
          · exact ih true
          · exact (unifyLines_cons hc rest).symm

theorem GapFree.not_line {text : List Char} (h : GapFree text) {c : Char}
    (hc : text.head? = some c) : c ≠ '\r' ∧ c ≠ '\n' := by
  obtain ⟨hblank, _⟩ := h c hc
  constructor
  · rintro rfl
    exact absurd hblank (by decide)
  · rintro rfl
    exact absurd hblank (by decide)

/-- An item does not depend on the way in which the lines behind it end. -/
theorem Cursor.item_unifyLines {c other : Cursor} (hfree : GapFree c.text)
    (h : other.text = unifyLines c.text) :
    other.item.2.1.unplaced = c.item.2.1.unplaced ∧
      other.item.2.2.text = unifyLines c.item.2.2.text := by
  cases hc : c.text with
  | nil =>
    rw [hc] at h
    have hother : other.text = [] := h
    simp only [item, hc, hother]
    exact ⟨rfl, rfl⟩
  | cons x rest =>
    rw [hc] at hfree h
    obtain ⟨hreturn, hfeed⟩ := hfree.not_line rfl
    have hother : other.text = x :: unifyLines rest := by rw [h, unifyLines_cons hreturn]
    have htake : ∀ p : Char → Bool, p '\r' = false → p '\n' = false →
        (x :: unifyLines rest).takeWhile p = (x :: rest).takeWhile p := by
      intro p hpr hpn
      rw [← unifyLines_cons hreturn, takeWhile_unifyLines hpr hpn]
    have hdrop : ∀ p : Char → Bool, p '\r' = false → p '\n' = false →
        (x :: unifyLines rest).drop ((x :: rest).takeWhile p).length =
          unifyLines ((x :: rest).drop ((x :: rest).takeWhile p).length) := by
      intro p hpr hpn
      rw [← htake p hpr hpn, drop_length_takeWhile, htake p hpr hpn, drop_length_takeWhile,
        ← dropWhile_unifyLines hpr hpn, unifyLines_cons hreturn]
    have hword := htake Char.isAlphanum (by decide) (by decide)
    have hnumber := htake isNumeric (by decide) (by decide)
    simp only [item, hc, hother, hword, hnumber]
    split
    · refine ⟨rfl, ?_⟩
      simp only [text_skip, hc, hother]
      exact hdrop Char.isAlphanum (by decide) (by decide)
    · split
      · refine ⟨numberItem_unplaced _ _ _, ?_⟩
        simp only [text_skip, hc, hother]
        exact hdrop isNumeric (by decide) (by decide)
      · exact ⟨rfl, by simp [hc, hother]⟩

/-! ### Lines and columns -/

/-- Every carriage return stands right in front of a line feed. -/
def ReturnsPaired (text : List Char) : Prop :=
  ∀ before after, text = before ++ '\r' :: after → after.head? = some '\n'

theorem returnsPaired_nil : ReturnsPaired [] := by
  intro before after h
  simp at h

theorem returnsPaired_cons {c : Char} {rest : List Char} :
    ReturnsPaired (c :: rest) ↔ (c = '\r' → rest.head? = some '\n') ∧ ReturnsPaired rest := by
  constructor
  · intro h
    refine ⟨fun hc => h [] rest (by rw [hc, List.nil_append]), fun before after hrest => ?_⟩
    exact h (c :: before) after (by rw [hrest, List.cons_append])
  · rintro ⟨hfirst, hrest⟩ before after heq
    cases before with
    | nil =>
      rw [List.nil_append, List.cons.injEq] at heq
      rw [← heq.2]
      exact hfirst heq.1
    | cons d before =>
      rw [List.cons_append, List.cons.injEq] at heq
      exact hrest before after heq.2

theorem ReturnsPaired.tail {c : Char} {rest : List Char} (h : ReturnsPaired (c :: rest)) :
    ReturnsPaired rest :=
  (returnsPaired_cons.1 h).2

/-- A cut between the two characters of one end of a line leaves a return that is not paired. -/
theorem ReturnsPaired.left {first second : List Char} (h : ReturnsPaired (first ++ second))
    (hcut : second.head? ≠ some '\n') : ReturnsPaired first := by
  rintro before after rfl
  have hhead := h before (after ++ second) (by simp)
  cases after with
  | nil => exact absurd hhead hcut
  | cons c after => exact hhead

theorem ReturnsPaired.not_mem {text : List Char} (h : ReturnsPaired text) (hfeed : '\n' ∉ text) :
    '\r' ∉ text := by
  intro hmem
  obtain ⟨before, after, rfl⟩ := List.append_of_mem hmem
  have hhead := h before after rfl
  exact hfeed (by simp [List.mem_of_mem_head? hhead])

theorem count_unifyLines {text : List Char} (h : ReturnsPaired text) :
    (unifyLines text).count '\n' = text.count '\n' := by
  fun_induction unifyLines text with
  | case1 => rfl
  | case2 rest ih =>
    have hrest := ih h.tail.tail
    simp [hrest]
  | case3 c rest hcut ih =>
    have hc : c ≠ '\r' := by
      rintro rfl
      obtain ⟨more, hmore⟩ := List.head?_eq_some_iff.1 ((returnsPaired_cons.1 h).1 rfl)
      exact hcut more rfl hmore
    rw [if_neg hc, List.count_cons, List.count_cons, ih h.tail]

theorem takeWhile_append_of_mem {p : Char → Bool} {x : Char} {text : List Char} (hx : x ∈ text)
    (hp : p x = false) (tail : List Char) : (text ++ tail).takeWhile p = text.takeWhile p := by
  induction text with
  | nil => cases hx
  | cons c text ih =>
    rw [List.cons_append, List.takeWhile_cons, List.takeWhile_cons]
    rcases List.mem_cons.1 hx with rfl | hx
    · simp [hp]
    · rw [ih hx]

theorem unifyLines_of_paired {text : List Char} (h : ReturnsPaired text) (hfeed : '\n' ∉ text) :
    unifyLines text = text := by
  have hsame := unifyLines_of_not_mem (h.not_mem hfeed) []
  rwa [List.append_nil, unifyLines, List.append_nil] at hsame

theorem lastLine_unifyLines {text : List Char} (h : ReturnsPaired text) :
    (unifyLines text).reverse.takeWhile (· != '\n') = text.reverse.takeWhile (· != '\n') := by
  fun_induction unifyLines text with
  | case1 => rfl
  | case2 rest ih =>
    simp only [List.reverse_cons, List.append_assoc]
    rw [takeWhile_append_of_stop, takeWhile_append_of_stop, ih h.tail.tail]
    · intro c hc
      cases hc
      rfl
    · intro c hc
      cases hc
      rfl
  | case3 c rest hcut ih =>
    have hc : c ≠ '\r' := by
      rintro rfl
      obtain ⟨more, hmore⟩ := List.head?_eq_some_iff.1 ((returnsPaired_cons.1 h).1 rfl)
      exact hcut more rfl hmore
    rw [if_neg hc, List.reverse_cons, List.reverse_cons]
    by_cases hfeed : '\n' ∈ rest
    · -- The last line starts behind a line feed of `rest`, on both sides.
      have hmem : '\n' ∈ unifyLines rest := by
        rw [← List.count_pos_iff, count_unifyLines h.tail, List.count_pos_iff]
        exact hfeed
      rw [takeWhile_append_of_mem (List.mem_reverse.2 hmem) rfl,
        takeWhile_append_of_mem (List.mem_reverse.2 hfeed) rfl, ih h.tail]
    · rw [unifyLines_of_paired h.tail hfeed]

namespace Location

/-- The line and the column of a place. -/
def lineColumn (l : Location) : Int × Int := (l.line, l.column)

end Location

/-- Where a text is cut in front of an item or at its end, the place has the same line and column in
the text with unified lines. -/
theorem Cursor.lineColumn_unifyLines (file : String) {passed rest : List Char}
    (h : ReturnsPaired (passed ++ rest)) (hcut : rest.head? ≠ some '\n') :
    (between file (unifyLines passed) (unifyLines rest)).location.lineColumn =
      (between file passed rest).location.lineColumn := by
  have hpassed := h.left hcut
  have hone : ((unifyLines rest).take 1).length = (rest.take 1).length := by
    cases rest with
    | nil => rfl
    | cons x tail =>
      have hne : unifyLines (x :: tail) ≠ [] := unifyLines_ne_nil (List.cons_ne_nil _ _)
      obtain ⟨y, more, hy⟩ := List.exists_cons_of_ne_nil hne
      rw [hy]
      rfl
  simp only [between, location, Place.location, Place.between, Location.lineColumn,
    count_unifyLines hpassed, lastLine_unifyLines hpassed, hone]

/-! ### Whole sources -/

/-- Two items that are the same up to places. Unless a carriage return of the source stands alone,
they are in the same line and column too. -/
structure SameUpToNewlines (source : List Char) (l other : Lexeme) : Prop where
  bare : other.bare = l.bare
  place : ReturnsPaired source →
    other.item.location?.map Location.lineColumn = l.item.location?.map Location.lineColumn

theorem Spells.return_not_mem {text rest : List Char} {item : Item} (h : Spells text rest item) :
    '\r' ∉ text := by
  intro hmem
  cases h with
  | define h _ | external h _ | identifier h _ _ =>
    exact absurd (h.holds.alphanum _ hmem) (by decide)
  | number h _ | malformed h _ => exact absurd (h.holds.2 _ hmem) (by decide)
  | symbol ht hblank _ _ _ =>
    rw [ht, List.mem_singleton] at hmem
    rw [← hmem] at hblank
    exact absurd hblank (by decide)

theorem Cursor.passGap_unifyLines (file : String) {passed text : List Char}
    (hpassed : passed.getLast? ≠ some '\r') :
    ∃ gap rest, text = gap ++ rest ∧ GapFree rest ∧
      unifyLines text = unifyLines gap ++ unifyLines rest ∧
      (between file passed text).passGap.2 = between file (passed ++ gap) rest ∧
      (between file (unifyLines passed) (unifyLines text)).passGap.2 =
        between file (unifyLines (passed ++ gap)) (unifyLines rest) := by
  obtain ⟨gap, rest, rfl, _, hfree, hpass⟩ := passGap_between file passed text
  obtain ⟨gap', rest', htext, _, _, hpass'⟩ :=
    passGap_between file (unifyLines passed) (unifyLines (gap ++ rest))
  have hrest : rest = behindGap false (gap ++ rest) := by
    have hbehind := text_passGap (between file passed (gap ++ rest))
    rwa [hpass] at hbehind
  have hrest' : rest' = unifyLines rest := by
    have hbehind := text_passGap (between file (unifyLines passed) (unifyLines (gap ++ rest)))
    rw [hpass'] at hbehind
    rw [hrest, ← behindGap_unifyLines]
    exact hbehind
  have hsplit : unifyLines (gap ++ rest) = unifyLines gap ++ unifyLines rest :=
    unifyLines_append rest fun _ hfeed => (hfree.not_line hfeed).2 rfl
  have hgap : unifyLines (passed ++ gap) = unifyLines passed ++ unifyLines gap :=
    unifyLines_append gap fun hreturn => absurd hreturn hpassed
  subst hrest'
  rw [hsplit] at htext
  obtain rfl := List.append_cancel_right htext
  exact ⟨gap, rest, rfl, hfree, hsplit, hpass, by rw [hpass', hgap]⟩

theorem Cursor.next_of_passGap {c here : Cursor} (h : c.passGap.2 = here) :
    c.next = (⟨c.passGap.1 ++ here.item.1, here.item.2.1⟩, here.item.2.2) := by
  subst h
  rfl

/-- Behind an item both cursors stand between corresponding parts again. -/
theorem Cursor.after_unifyLines (file : String) {passed text : List Char} (hfree : GapFree text) :
    ∃ before rest, (between file passed text).item.2.2 = between file before rest ∧
      (between file (unifyLines passed) (unifyLines text)).item.2.2 =
        between file (unifyLines before) (unifyLines rest) ∧
      ((between file passed text).item.2.1.isEnd = true ∨
        (between file passed text).item.2.1.isEnd = false ∧ before ++ rest = passed ++ text ∧
        before.getLast? ≠ some '\r' ∧ rest.length < text.length ∧
        (unifyLines rest).length < (unifyLines text).length) := by
  cases text with
  | nil => exact ⟨passed, [], rfl, rfl, Or.inl rfl⟩
  | cons x tail =>
    obtain ⟨hreturn, hfeed⟩ := hfree.not_line rfl
    have htranslated : unifyLines (x :: tail) = x :: unifyLines tail := unifyLines_cons hreturn tail
    have hfree' : GapFree (x :: unifyLines tail) := fun c hc => hfree c hc
    obtain ⟨own, rest, notes, item, htext, hspells, _, hitem⟩ := item_between file passed hfree
    obtain ⟨own', rest', notes', item', htext', _, _, hitem'⟩ :=
      item_between file (unifyLines passed) hfree'
    have hno := hspells.return_not_mem
    have hpos := hspells.length_pos
    -- The item has no ends of lines in it, so it is translated to itself.
    have hsplit : unifyLines (own ++ rest) = own ++ unifyLines rest :=
      unifyLines_of_not_mem hno rest
    have hown : unifyLines (passed ++ own) = unifyLines passed ++ own := by
      have hself := unifyLines_of_not_mem hno []
      rw [List.append_nil, unifyLines, List.append_nil] at hself
      rw [unifyLines_append own, hself]
      intro _ hhead
      obtain ⟨y, more, hy⟩ := List.exists_cons_of_length_pos hpos
      rw [hy, List.cons_append, List.cons.injEq] at htext
      rw [hy, List.head?_cons, ← htext.1] at hhead
      exact hfeed (Option.some.inj hhead)
    have hrest : rest' = unifyLines rest := by
      obtain ⟨_, hafter⟩ := @item_unifyLines (between file passed (x :: tail))
        (between file (unifyLines passed) (x :: unifyLines tail)) hfree htranslated.symm
      rw [hitem, hitem'] at hafter
      exact hafter
    have hsame : own' = own := by
      rw [hrest, ← htranslated, htext, hsplit] at htext'
      exact (List.append_cancel_right htext').symm
    refine ⟨passed ++ own, rest, by rw [hitem], ?_, Or.inr ⟨?_, ?_, ?_, ?_, ?_⟩⟩
    · rw [htranslated, hitem', hown, hsame, hrest]
    · rw [hitem]
      exact hspells.isEnd
    · rw [htext, List.append_assoc]
    · intro hlast
      rw [List.getLast?_append_of_ne_nil _ (List.ne_nil_of_length_pos hpos)] at hlast
      exact hno (List.mem_of_getLast? hlast)
    · rw [htext, List.length_append]
      omega
    · rw [htext, hsplit, List.length_append]
      omega

/-- What is read next in a source and in its translation: the same item up to newlines, and then
both go on between corresponding parts, or both are at their ends. -/
theorem Cursor.next_unifyLines (file : String) {passed text : List Char}
    (hpassed : passed.getLast? ≠ some '\r') :
    ∃ l l' before rest, (between file passed text).next = (l, between file before rest) ∧
      (between file (unifyLines passed) (unifyLines text)).next =
        (l', between file (unifyLines before) (unifyLines rest)) ∧
      SameUpToNewlines (passed ++ text) l l' ∧
      (l.item.isEnd = true ∨ l.item.isEnd = false ∧ before ++ rest = passed ++ text ∧
        before.getLast? ≠ some '\r' ∧ rest.length < text.length ∧
        (unifyLines rest).length < (unifyLines text).length) := by
  obtain ⟨gap, tail, rfl, hfree, hsplit, hpass, hpass'⟩ :=
    @passGap_unifyLines file passed text hpassed
  obtain ⟨before, rest, hafter, hafter', hmore⟩ :=
    @after_unifyLines file (passed ++ gap) tail hfree
  obtain ⟨hbare, _⟩ := @item_unifyLines (between file (passed ++ gap) tail)
    (between file (unifyLines (passed ++ gap)) (unifyLines tail)) hfree rfl
  have hnext := next_of_passGap hpass
  have hnext' := next_of_passGap hpass'
  rw [hafter] at hnext
  rw [hafter'] at hnext'
  refine ⟨_, _, before, rest, hnext, hnext', ⟨hbare, fun hpaired => ?_⟩, ?_⟩
  · -- Both items are read at corresponding cuts, so their places correspond too.
    rw [← List.append_assoc] at hpaired
    rw [location?_item, location?_item, Option.map_some, Option.map_some,
      lineColumn_unifyLines file hpaired fun hfeed => (hfree.not_line hfeed).2 rfl]
  · refine hmore.imp_right fun ⟨hopen, hsource, hbefore, hless, hless'⟩ => ?_
    refine ⟨hopen, by rw [hsource, List.append_assoc], hbefore, ?_, ?_⟩
    · rw [List.length_append]
      omega
    · rw [hsplit, List.length_append]
      omega

/-- Cursors in a source and in its translation read the same items, as long as neither stands inside
the end of a line. -/
theorem lexemesFrom_unifyLines {file : String} {fuel fuel' : Nat} {passed text : List Char}
    {c other : Cursor} (hc : c.next = (Cursor.between file passed text).next)
    (hother : other.next = (Cursor.between file (unifyLines passed) (unifyLines text)).next)
    (hpassed : passed.getLast? ≠ some '\r') (hfuel : text.length < fuel)
    (hfuel' : (unifyLines text).length < fuel') :
    List.Forall₂ (SameUpToNewlines (passed ++ text)) (lexemesFrom fuel c)
      (lexemesFrom fuel' other) := by
  induction fuel generalizing fuel' passed text c other with
  | zero => exact absurd hfuel (Nat.not_lt_zero _)
  | succ fuel ih =>
    obtain ⟨fuel', rfl⟩ : ∃ k, fuel' = k + 1 := ⟨fuel' - 1, by omega⟩
    obtain ⟨l, l', before, rest, hnext, hnext', hsame, hmore⟩ :=
      @Cursor.next_unifyLines file passed text hpassed
    have hend : l'.item.isEnd = l.item.isEnd := by
      have hunplaced := congrArg Item.isEnd hsame.bare
      simpa [Lexeme.bare] using hunplaced
    rw [hnext] at hc
    rw [hnext'] at hother
    rcases hmore with hover | ⟨hopen, hsource, hbefore, hless, hless'⟩
    · have hone : lexemesFrom (fuel + 1) c = [l] := by simp only [lexemesFrom, hc, hover, if_true]
      have hone' : lexemesFrom (fuel' + 1) other = [l'] := by
        simp only [lexemesFrom, hother, hend, hover, if_true]
      rw [hone, hone']
      exact .cons hsame .nil
    · have hgoes : lexemesFrom (fuel + 1) c =
          l :: lexemesFrom fuel (.between file before rest) := by
        simp only [lexemesFrom, hc, hopen, Bool.false_eq_true, if_false]
      have hgoes' : lexemesFrom (fuel' + 1) other =
          l' :: lexemesFrom fuel' (.between file (unifyLines before) (unifyLines rest)) := by
        simp only [lexemesFrom, hother, hend, hopen, Bool.false_eq_true, if_false]
      have hrest := @ih fuel' before rest _ _ rfl rfl hbefore (by omega) (by omega)
      rw [hsource] at hrest
      rw [hgoes, hgoes']
      exact .cons hsame hrest

theorem lexemes_unifyLines (file : String) (source : List Char) :
    List.Forall₂ (SameUpToNewlines source) (lexemes file source)
      (lexemes file (unifyLines source)) :=
  lexemesFrom_unifyLines (Cursor.next_start file source)
    (Cursor.next_start file (unifyLines source)) (by simp) (Nat.lt_succ_self _) (Nat.lt_succ_self _)

end ScalarLang
