import ScalarLang.Proofs.Token.Lexemes

/-!
# A source as gaps and items

The items of a source and the gaps between them make up the source, character by character: each
item stands at the offset that it reports, a gap holds blanks and comments only, and every item is
the longest of its kind. After an item the cursor stands between what has been passed and what is
left, with one character pending; the end of the input is read again and again.
-/
namespace ScalarLang

/-! ### Cursors between two parts of a source -/

/-- The counters of a cursor that has passed one part of a source and has the other left. Of what is
left only the pending character has been loaded. -/
def Place.between (passed rest : List Char) : Place where
  line := 1 + passed.count '\n'
  column := (passed.reverse.takeWhile (· != '\n')).length + (rest.take 1).length
  loaded := passed.length + (rest.take 1).length

/-- The cursor that has passed one part of a source and has the other left. -/
def Cursor.between (file : String) (passed rest : List Char) : Cursor :=
  ⟨file, rest, .between passed rest⟩

theorem Place.past_between (passed : List Char) (c : Char) (rest : List Char) :
    (Place.between passed (c :: rest)).past c rest = .between (passed ++ [c]) rest := by
  by_cases hc : c = '\n'
  · cases rest with
    | nil => simp [past, between, hc, Nat.add_assoc]
    | cons x rest => simp [past, between, hc, Nat.add_assoc]
  · cases rest with
    | nil => simp [past, between, hc]
    | cons x rest => simp [past, between, hc]

namespace Cursor

variable {file : String} {passed text rest : List Char}

theorem advance_between (file : String) (passed : List Char) (c : Char) (rest : List Char) :
    (between file passed (c :: rest)).advance = between file (passed ++ [c]) rest := by
  simp [advance, between, Place.past_between]

theorem skip_between (file : String) (passed text rest : List Char) :
    (between file passed (text ++ rest)).skip text.length = between file (passed ++ text) rest := by
  induction text generalizing passed with
  | nil => simp [skip]
  | cons c text ih =>
    rw [List.length_cons, skip, List.cons_append, advance_between, ih]
    simp

/-- The blank in front of a source is passed with the first gap. -/
theorem next_start (file : String) (source : List Char) :
    (start file source).next = (between file [] source).next := by
  have hplace : Place.start.past ' ' source = .between [] source := by
    cases source with
    | nil => rfl
    | cons x rest => rfl
  have hgap : (start file source).passGap = (between file [] source).passGap := by
    have hblank : Text.isBlank ' ' = true := by decide
    simp only [passGap, start, between, ScalarLang.passGap, hblank, if_true, hplace]
  simp only [next, hgap]

end Cursor

/-! ### Gaps -/

/-- A gap in front of `rest`: blanks, and comments that run up to the end of their line or of the
source. -/
inductive Gap : List Char → List Char → Prop
  | nil (rest : List Char) : Gap [] rest
  | blank {c : Char} {gap rest : List Char} (hc : Text.isBlank c = true) (h : Gap gap rest) :
      Gap (c :: gap) rest
  | comment {body gap rest : List Char} (hbody : ∀ c ∈ body, endsLine c = false)
      (hstop : ∀ c, (gap ++ rest).head? = some c → endsLine c = true) (h : Gap gap rest) :
      Gap ('#' :: (body ++ gap)) rest

/-- The text does not go on with a gap. -/
def GapFree (text : List Char) : Prop :=
  ∀ c, text.head? = some c → Text.isBlank c = false ∧ c ≠ '#'

theorem isBlank_of_endsLine {c : Char} (h : endsLine c = true) : Text.isBlank c = true := by
  simp only [endsLine, Bool.or_eq_true, beq_iff_eq] at h
  rcases h with rfl | rfl
  · decide
  · decide

theorem isBlank_hash : Text.isBlank '#' = false := by decide

/-- A comment can end as soon as it has begun. -/
theorem Gap.comment_nil {gap rest : List Char}
    (hstop : ∀ c, (gap ++ rest).head? = some c → endsLine c = true) (h : Gap gap rest) :
    Gap ('#' :: gap) rest := by
  have hnone : ∀ c ∈ ([] : List Char), endsLine c = false := by simp
  exact .comment hnone hstop h

theorem Gap.comment_cons {c : Char} {gap rest : List Char} (hc : endsLine c = false)
    (h : Gap ('#' :: gap) rest) : Gap ('#' :: c :: gap) rest := by
  cases h with
  | blank hblank _ =>
    rw [isBlank_hash] at hblank
    cases hblank
  | @comment body own _ hbody hstop h =>
    have hlonger : ∀ d ∈ c :: body, endsLine d = false := by
      intro d hd
      rcases List.mem_cons.1 hd with rfl | hd
      · exact hc
      · exact hbody d hd
    exact .comment hlonger hstop h

/-- What passing a gap amounts to. Inside a comment the gap is counted from its opening on. -/
theorem passGap_spec (file : String) (start : Option Location) (passed text : List Char) :
    ∃ gap rest, text = gap ++ rest ∧ Gap (if start.isSome then '#' :: gap else gap) rest ∧
      GapFree rest ∧
      (passGap file start text (.between passed text)).2 =
        (rest, .between (passed ++ gap) rest) := by
  induction text generalizing start passed with
  | nil =>
    refine ⟨[], [], rfl, ?_, by simp [GapFree], ?_⟩
    · cases start with
      | none => exact .nil []
      | some location => exact .comment_nil (by simp) (.nil [])
    · cases start with
      | none => simp [passGap]
      | some location => simp [passGap]
  | cons c text ih =>
    cases start with
    | none =>
      by_cases hblank : Text.isBlank c = true
      · obtain ⟨gap, rest, rfl, hgap, hfree, heq⟩ := ih none (passed ++ [c])
        refine ⟨c :: gap, rest, rfl, .blank hblank hgap, hfree, ?_⟩
        rw [passGap, if_pos hblank, Place.past_between, heq]
        simp
      · by_cases hhash : c = '#'
        · subst hhash
          obtain ⟨gap, rest, rfl, hgap, hfree, heq⟩ :=
            ih (some (Place.location (.between passed ('#' :: text)) file)) (passed ++ ['#'])
          refine ⟨'#' :: gap, rest, rfl, hgap, hfree, ?_⟩
          rw [passGap, if_neg hblank, if_pos rfl, Place.past_between, heq]
          simp
        · refine ⟨[], c :: text, rfl, .nil _, ?_, ?_⟩
          · intro d hd
            cases hd
            exact ⟨by simpa using hblank, hhash⟩
          · rw [passGap, if_neg hblank, if_neg hhash]
            simp
    | some location =>
      by_cases hline : endsLine c = true
      · obtain ⟨gap, rest, rfl, hgap, hfree, heq⟩ := ih none (passed ++ [c])
        refine ⟨c :: gap, rest, rfl, ?_, hfree, ?_⟩
        · refine .comment_nil (fun d hd => ?_) (.blank (isBlank_of_endsLine hline) hgap)
          cases hd
          exact hline
        · simp only [passGap, hline, if_true, Place.past_between, heq]
          simp
      · have hopen : endsLine c = false := by simpa using hline
        obtain ⟨gap, rest, rfl, hgap, hfree, heq⟩ := ih (some location) (passed ++ [c])
        refine ⟨c :: gap, rest, rfl, hgap.comment_cons hopen, hfree, ?_⟩
        rw [passGap, if_neg hline, Place.past_between, heq]
        simp

theorem Cursor.passGap_between (file : String) (passed text : List Char) :
    ∃ gap rest, text = gap ++ rest ∧ Gap gap rest ∧ GapFree rest ∧
      (between file passed text).passGap.2 = between file (passed ++ gap) rest := by
  obtain ⟨gap, rest, htext, hgap, hfree, heq⟩ := passGap_spec file none passed text
  refine ⟨gap, rest, htext, hgap, hfree, ?_⟩
  simp only [between, passGap, heq]

/-! ### Items -/

/-- A letter, and then letters and digits. -/
def Wordlike (text : List Char) : Prop :=
  ∃ x rest, text = x :: rest ∧ x.isAlpha = true ∧ ∀ c ∈ rest, c.isAlphanum = true

/-- Digits and points, at least one of them. -/
def Numberlike (text : List Char) : Prop := text ≠ [] ∧ ∀ c ∈ text, isNumeric c = true

/-- Of all beginnings of `text ++ rest` with the property, `text` is the longest. -/
structure Longest (property : List Char → Prop) (text rest : List Char) : Prop where
  holds : property text
  longest : ∀ other, other <+: text ++ rest → property other → other.length ≤ text.length

/-- The item that a text is, if `rest` comes after it. -/
inductive Spells (text rest : List Char) : Item → Prop
  | define {location : Option Location} (h : Longest Wordlike text rest)
      (ht : text = "def".toList) : Spells text rest (.token ⟨.define, String.ofList text, location⟩)
  | external {location : Option Location} (h : Longest Wordlike text rest)
      (ht : text = "extern".toList) :
      Spells text rest (.token ⟨.external, String.ofList text, location⟩)
  | identifier {location : Option Location} (h : Longest Wordlike text rest)
      (hdefine : text ≠ "def".toList) (hexternal : text ≠ "extern".toList) :
      Spells text rest
        (.token ⟨.identifier (String.ofList text), String.ofList text, location⟩)
  | number {part : List Char} {location : Option Location} (h : Longest Numberlike text rest)
      (hpart : numberPart? text = some part) :
      Spells text rest
        (.token ⟨.number (Decimal.literalValue part), String.ofList text, location⟩)
  | malformed {location : Location} (h : Longest Numberlike text rest)
      (hpart : numberPart? text = none) :
      Spells text rest (.malformed ⟨String.ofList text, location⟩)
  | symbol {c : Char} {location : Option Location} (ht : text = [c])
      (hblank : Text.isBlank c = false) (halnum : c.isAlphanum = false) (hpoint : c ≠ '.')
      (hhash : c ≠ '#') :
      Spells text rest (.token ⟨.symbol (String.singleton c), String.singleton c, location⟩)

/-- The offset that an item reports. -/
def Item.offset? : Item → Option Int
  | token t => t.location.map Location.offset
  | malformed fault => some fault.location.offset

theorem wordlike_takeWhile {x : Char} {rest : List Char} (h : x.isAlpha = true) :
    Wordlike ((x :: rest).takeWhile Char.isAlphanum) := by
  have halnum : x.isAlphanum = true := by simp [Char.isAlphanum, h]
  rw [List.takeWhile_cons_of_pos halnum]
  exact ⟨x, rest.takeWhile Char.isAlphanum, rfl, h, fun c hc => List.mem_takeWhile_imp hc⟩

theorem numberlike_takeWhile {x : Char} {rest : List Char} (h : isNumeric x = true) :
    Numberlike ((x :: rest).takeWhile isNumeric) := by
  refine ⟨?_, fun c hc => List.mem_takeWhile_imp hc⟩
  rw [List.takeWhile_cons_of_pos h]
  exact List.cons_ne_nil _ _

theorem toNat_of_isAlpha {c : Char} (h : c.isAlpha = true) : 65 ≤ c.toNat ∧ c.toNat ≤ 122 := by
  have hval : c.val.toNat = c.toNat := rfl
  change (decide (c.val ≥ 'A'.val ∧ c.val ≤ 'Z'.val) ||
    decide (c.val ≥ 'a'.val) && decide (c.val ≤ 'z'.val)) = true at h
  simp only [Bool.or_eq_true, Bool.and_eq_true, decide_eq_true_eq, ge_iff_le,
    UInt32.le_iff_toNat_le, hval, Char.reduceVal, UInt32.reduceToNat] at h
  omega

theorem toNat_of_isDigit {c : Char} (h : c.isDigit = true) : 48 ≤ c.toNat ∧ c.toNat ≤ 57 := by
  have hval : c.val.toNat = c.toNat := rfl
  change (decide (c.val ≥ '0'.val) && decide (c.val ≤ '9'.val)) = true at h
  simp only [Bool.and_eq_true, decide_eq_true_eq, ge_iff_le, UInt32.le_iff_toNat_le, hval,
    Char.reduceVal, UInt32.reduceToNat] at h
  exact h

theorem isAlpha_of_isNumeric {c : Char} (h : isNumeric c = true) : c.isAlpha = false := by
  simp only [isNumeric, Bool.or_eq_true, beq_iff_eq] at h
  rcases h with hdigit | rfl
  · by_contra halpha
    obtain ⟨hlow, _⟩ := toNat_of_isAlpha (by simpa using halpha)
    obtain ⟨_, hhigh⟩ := toNat_of_isDigit hdigit
    omega
  · decide

theorem Wordlike.alphanum {text : List Char} (h : Wordlike text) :
    ∀ c ∈ text, c.isAlphanum = true := by
  obtain ⟨x, rest, rfl, hx, hrest⟩ := h
  intro c hc
  rcases List.mem_cons.1 hc with rfl | hc
  · simp [Char.isAlphanum, hx]
  · exact hrest c hc

/-- The longest run of a class of characters is the longest text of any property that only texts of
the class have. -/
theorem longest_takeWhile {property : List Char → Prop} {p : Char → Bool} {text : List Char}
    (hall : ∀ other, property other → ∀ c ∈ other, p c = true)
    (h : property (text.takeWhile p)) :
    Longest property (text.takeWhile p) (text.dropWhile p) where
  holds := h
  longest other hother hproperty := by
    rw [List.takeWhile_append_dropWhile] at hother
    obtain ⟨rest, rfl⟩ := hother
    rw [List.takeWhile_append_of_pos (hall other hproperty), List.length_append]
    exact Nat.le_add_right _ _

theorem spells_wordKind {text rest : List Char} (h : Longest Wordlike text rest)
    (location : Option Location) :
    Spells text rest
      (.token ⟨wordKind (String.ofList text), String.ofList text, location⟩) := by
  unfold wordKind
  split
  · next hdefine => exact .define h (String.ofList_injective (by simpa using hdefine))
  · next hdefine =>
    split
    · next hexternal => exact .external h (String.ofList_injective (by simpa using hexternal))
    · next hexternal =>
      refine .identifier h (fun ht => hdefine ?_) (fun ht => hexternal ?_)
      · rw [ht, String.ofList_toList]
      · rw [ht, String.ofList_toList]

theorem spells_numberItem {text rest : List Char} (h : Longest Numberlike text rest)
    (location : Location) : Spells text rest (numberItem text location).2 := by
  unfold numberItem
  cases hpart : numberPart? text with
  | none => exact .malformed h hpart
  | some part => exact .number h hpart

theorem offset?_numberItem (run : List Char) (location : Location) :
    (numberItem run location).2.offset? = some location.offset := by
  unfold numberItem
  cases numberPart? run with
  | none => rfl
  | some part => rfl

/-- A text that is longest of its kind is the whole run of characters of its class. -/
theorem Longest.takeWhile_eq {property : List Char → Prop} {p : Char → Bool}
    {text rest : List Char} (h : Longest property text rest) (hall : ∀ c ∈ text, p c = true)
    (hrun : property ((text ++ rest).takeWhile p)) : (text ++ rest).takeWhile p = text := by
  have hlength := h.longest _ (List.takeWhile_prefix p) hrun
  rw [List.takeWhile_append_of_pos hall] at hlength ⊢
  rw [List.length_append] at hlength
  have hnone : rest.takeWhile p = [] := List.length_eq_zero_iff.1 (by omega)
  rw [hnone, List.append_nil]

namespace Cursor

variable {file : String} {passed text rest : List Char}

theorem item_of_word (file : String) (passed : List Char) (h : Longest Wordlike text rest) :
    (between file passed (text ++ rest)).item =
      ([], .token ⟨wordKind (String.ofList text), String.ofList text,
        (between file passed (text ++ rest)).location⟩, between file (passed ++ text) rest) := by
  obtain ⟨x, tail, rfl, hx, _⟩ := h.holds
  have hrun : ((x :: tail) ++ rest).takeWhile Char.isAlphanum = x :: tail :=
    h.takeWhile_eq h.holds.alphanum (wordlike_takeWhile hx)
  have htext : (between file passed (x :: tail ++ rest)).text = x :: tail ++ rest := rfl
  simp only [item, htext, hrun, skip_between]
  simp only [List.cons_append, hx, if_true]

theorem item_of_number (file : String) (passed : List Char) (h : Longest Numberlike text rest) :
    let found := numberItem text (between file passed (text ++ rest)).location
    (between file passed (text ++ rest)).item =
      (found.1, found.2, between file (passed ++ text) rest) := by
  intro found
  obtain ⟨hne, hall⟩ := h.holds
  obtain ⟨x, tail, rfl⟩ := List.exists_cons_of_ne_nil hne
  have hx : isNumeric x = true := hall x (List.mem_cons_self ..)
  have halpha : x.isAlpha = false := isAlpha_of_isNumeric hx
  have hrun : ((x :: tail) ++ rest).takeWhile isNumeric = x :: tail :=
    h.takeWhile_eq hall (numberlike_takeWhile hx)
  have htext : (between file passed (x :: tail ++ rest)).text = x :: tail ++ rest := rfl
  simp only [item, htext, hrun, skip_between]
  simp only [List.cons_append, halpha, hx, if_true, Bool.false_eq_true, if_false]
  rfl

theorem item_of_symbol (file : String) (passed : List Char) {c : Char} (rest : List Char)
    (halnum : c.isAlphanum = false) (hpoint : c ≠ '.') :
    (between file passed (c :: rest)).item =
      ([], .token ⟨.symbol (String.singleton c), String.singleton c,
        (between file passed (c :: rest)).location⟩, between file (passed ++ [c]) rest) := by
  have hclass : c.isAlpha = false ∧ c.isDigit = false := by
    simpa [Char.isAlphanum] using halnum
  have hnumeric : isNumeric c = false := by simp [isNumeric, hclass.2, hpoint]
  have htext : (between file passed (c :: rest)).text = c :: rest := rfl
  simp only [item, htext, hclass.1, hnumeric, Bool.false_eq_true, if_false, advance_between]

theorem offset_between (file : String) (passed : List Char) (x : Char) (tail : List Char) :
    (between file passed (x :: tail)).location.offset = passed.length := by
  simp [between, location, Place.location, Place.between]

/-- The item where no gap is left. -/
theorem item_between (file : String) (passed : List Char) {x : Char} {tail : List Char}
    (hfree : GapFree (x :: tail)) :
    ∃ text rest notes item, x :: tail = text ++ rest ∧ Spells text rest item ∧
      item.offset? = some (passed.length : Int) ∧
      (between file passed (x :: tail)).item =
        (notes, item, between file (passed ++ text) rest) := by
  have hoffset := offset_between file passed x tail
  have hsplit : ∀ p : Char → Bool,
      (x :: tail).takeWhile p ++ (x :: tail).dropWhile p = x :: tail :=
    fun p => List.takeWhile_append_dropWhile
  by_cases halpha : x.isAlpha = true
  · have hword := longest_takeWhile (fun _ h => h.alphanum)
      (@wordlike_takeWhile x tail halpha)
    have hitem := item_of_word file passed hword
    rw [hsplit] at hitem
    have hspells := spells_wordKind hword (some (between file passed (x :: tail)).location)
    exact ⟨_, _, _, _, (hsplit _).symm, hspells, congrArg some hoffset, hitem⟩
  · by_cases hnumeric : isNumeric x = true
    · have hnumber := longest_takeWhile (fun _ h => h.2)
        (@numberlike_takeWhile x tail hnumeric)
      have hitem := item_of_number file passed hnumber
      rw [hsplit] at hitem
      refine ⟨_, _, _, _, (hsplit _).symm, spells_numberItem hnumber _, ?_, hitem⟩
      rw [offset?_numberItem, hoffset]
    · obtain ⟨hblank, hhash⟩ := hfree x rfl
      have hclass : x.isDigit = false ∧ x ≠ '.' := by simpa [isNumeric] using hnumeric
      have halnum : x.isAlphanum = false := by simp [Char.isAlphanum, halpha, hclass.1]
      have hitem := item_of_symbol file passed tail halnum hclass.2
      have hspells : Spells [x] tail (.token ⟨.symbol (String.singleton x), String.singleton x,
          (between file passed (x :: tail)).location⟩) :=
        .symbol rfl hblank halnum hclass.2 hhash
      exact ⟨[x], tail, _, _, rfl, hspells, congrArg some hoffset, hitem⟩

end Cursor

/-! ### Whole sources -/

/-- A cursor that has passed one part of a source reads the other part as gaps and items. After each
item it stands right behind the text of that item. At the end it stays where it is, and reads the
same end again. -/
inductive Segmented (file : String) : List Char → List Char → Cursor → List Lexeme → Prop
  | item {passed gap text rest : List Char} {c : Cursor} {lexeme : Lexeme} {later : List Lexeme}
      (hgap : Gap gap (text ++ rest)) (hspells : Spells text rest lexeme.item)
      (hoffset : lexeme.item.offset? = some ((passed ++ gap).length : Int))
      (hnext : c.next = (lexeme, .between file (passed ++ gap ++ text) rest))
      (hlater : Segmented file (passed ++ gap ++ text) rest
        (.between file (passed ++ gap ++ text) rest) later) :
      Segmented file passed (gap ++ (text ++ rest)) c (lexeme :: later)
  | ending {passed gap : List Char} {c : Cursor} {notes : List Note} {location : Location}
      (hgap : Gap gap [])
      (hnext : c.next = (⟨notes, .token ⟨.eof, "", location⟩⟩, .between file (passed ++ gap) []))
      (hagain : (Cursor.between file (passed ++ gap) []).next =
        (⟨[], .token ⟨.eof, "", location⟩⟩, .between file (passed ++ gap) [])) :
      Segmented file passed gap c [⟨notes, .token ⟨.eof, "", location⟩⟩]

theorem Spells.isEnd {text rest : List Char} {item : Item} (h : Spells text rest item) :
    item.isEnd = false := by
  cases h <;> rfl

theorem Spells.length_pos {text rest : List Char} {item : Item} (h : Spells text rest item) :
    0 < text.length := by
  have hword : Longest Wordlike text rest → 0 < text.length := by
    rintro ⟨⟨x, tail, rfl, _⟩, _⟩
    exact Nat.succ_pos _
  have hnumber : Longest Numberlike text rest → 0 < text.length :=
    fun h => List.length_pos_iff.2 h.holds.1
  cases h with
  | define h _ => exact hword h
  | external h _ => exact hword h
  | identifier h _ _ => exact hword h
  | number h _ => exact hnumber h
  | malformed h _ => exact hnumber h
  | symbol ht => simp [ht]

theorem Cursor.next_of_gap {file : String} {passed gap rest : List Char} {c : Cursor}
    (hc : c.next = (between file passed (gap ++ rest)).next)
    (hgap : (between file passed (gap ++ rest)).passGap.2 = between file (passed ++ gap) rest)
    {notes : List Note} {item : Item} {after : Cursor}
    (hitem : (between file (passed ++ gap) rest).item = (notes, item, after)) :
    ∃ own, c.next = (⟨own, item⟩, after) := by
  refine ⟨(between file passed (gap ++ rest)).passGap.1 ++ notes, ?_⟩
  rw [hc]
  simp only [next, hgap, hitem]

theorem Cursor.next_at_end (file : String) (passed : List Char) :
    (between file passed []).next =
      (⟨[], .token ⟨.eof, "", (between file passed []).location⟩⟩, between file passed []) := rfl

theorem segmented_lexemesFrom {file : String} {fuel : Nat} {passed text : List Char} {c : Cursor}
    (hc : c.next = (Cursor.between file passed text).next) (hfuel : text.length < fuel) :
    Segmented file passed text c (lexemesFrom fuel c) := by
  -- Every item takes a character, so the characters that are left bound the rounds that are left.
  induction fuel generalizing passed text c with
  | zero => exact absurd hfuel (Nat.not_lt_zero _)
  | succ fuel ih =>
    obtain ⟨gap, tail, rfl, hgap, hfree, heq⟩ := Cursor.passGap_between file passed text
    cases tail with
    | nil =>
      have hover : (Cursor.between file (passed ++ gap) []).item = ([], .token ⟨.eof, "", _⟩, _) :=
        rfl
      obtain ⟨own, hnext⟩ := Cursor.next_of_gap hc heq hover
      have hone : lexemesFrom (fuel + 1) c = [c.next.1] := by
        simp only [lexemesFrom, hnext]
        rfl
      rw [hone, hnext, List.append_nil]
      exact .ending hgap hnext (Cursor.next_at_end file _)
    | cons x tail =>
      obtain ⟨text, rest, notes, item, htail, hspells, hoffset, hitem⟩ :=
        Cursor.item_between file (passed ++ gap) hfree
      obtain ⟨own, hnext⟩ := Cursor.next_of_gap hc heq hitem
      have hmore : lexemesFrom (fuel + 1) c =
          ⟨own, item⟩ :: lexemesFrom fuel (.between file (passed ++ gap ++ text) rest) := by
        simp only [lexemesFrom, hnext, hspells.isEnd, Bool.false_eq_true, if_false]
      have hfewer : rest.length < fuel := by
        have hpos := hspells.length_pos
        rw [htail] at hfuel
        simp only [List.length_append] at hfuel
        omega
      rw [htail] at hgap ⊢
      rw [hmore]
      exact .item hgap hspells hoffset hnext (ih rfl hfewer)

/-- Reading cuts every source into gaps and items. -/
theorem source_is_gaps_and_items (file : String) (source : List Char) :
    Segmented file [] source (Cursor.start file source) (lexemes file source) :=
  segmented_lexemesFrom (Cursor.next_start file source) (Nat.lt_succ_self _)

end ScalarLang
