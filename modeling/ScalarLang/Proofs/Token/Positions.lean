import ScalarLang.Proofs.Token.Segmentation

/-!
# Lines and columns

The counters of a cursor lag behind: a line feed counts only when it is passed, and the end of the
source moves neither the column nor the offset. The places that items report are exact all the same.
Whatever is read, however often, and also behind malformed literals and at the end, its line, column
and offset are those of its first character in the source.
-/
namespace ScalarLang

/-! ### Places in a source -/

/-- The last line of a text starts at this index: just behind the last line feed, or in front of the
text if it holds none. -/
inductive LastLine : List Char → Nat → Prop
  | mk {before line : List Char} (hfeed : ∀ c ∈ before.getLast?, c = '\n') (hline : '\n' ∉ line) :
      LastLine (before ++ line) before.length

/-- The place is that of the character at an index of the source. -/
structure Location.ExactAt (l : Location) (source : List Char) (index : Nat) : Prop where
  offset : l.offset = index
  line : l.line = 1 + (source.take index).count '\n'
  column : ∃ start, LastLine (source.take index) start ∧ l.column = index - start + 1

/-- The place is that of the end of the source. It has the offset of the last character and at least
the first column. -/
structure Location.ExactEnd (l : Location) (source : List Char) : Prop where
  offset : l.offset = max 0 ((source.length : Int) - 1)
  line : l.line = 1 + source.count '\n'
  column : ∃ start, LastLine source start ∧ l.column = max 1 ((source.length : Int) - start)

theorem lastLine_takeWhile (text : List Char) :
    ∃ start, LastLine text start ∧
      start + (text.reverse.takeWhile (· != '\n')).length = text.length := by
  have hsplit : text.reverse.takeWhile (· != '\n') ++ text.reverse.dropWhile (· != '\n') =
      text.reverse := List.takeWhile_append_dropWhile
  have hstop := List.head?_dropWhile_not (· != '\n') text.reverse
  have hrun : ∀ c ∈ text.reverse.takeWhile (· != '\n'), (c != '\n') = true := by
    intro c hc
    have hpass := List.mem_takeWhile_imp hc
    exact hpass
  generalize text.reverse.takeWhile (· != '\n') = line at hsplit hrun ⊢
  generalize text.reverse.dropWhile (· != '\n') = before at hsplit hstop
  have htext : text = before.reverse ++ line.reverse := by
    rw [← List.reverse_append, hsplit, List.reverse_reverse]
  refine ⟨before.reverse.length, ?_, ?_⟩
  · rw [htext]
    refine .mk (fun c hc => ?_) (fun hmem => ?_)
    · rw [List.getLast?_reverse] at hc
      rw [hc] at hstop
      simpa using hstop
    · have hno := hrun '\n' (List.mem_reverse.1 hmem)
      simp at hno
  · rw [htext]
    simp

namespace Cursor

variable {file : String} {passed text rest : List Char}

theorem exactAt_between (file : String) (passed : List Char) (x : Char) (tail : List Char) :
    (between file passed (x :: tail)).location.ExactAt (passed ++ x :: tail) passed.length := by
  obtain ⟨start, hlast, hlength⟩ := lastLine_takeWhile passed
  refine ⟨offset_between file passed x tail, ?_, start, ?_, ?_⟩
  · simp [between, location, Place.location, Place.between]
  · rwa [List.take_left]
  · simp only [between, location, Place.location, Place.between, List.take_succ_cons,
      List.take_zero, List.length_cons, List.length_nil]
    omega

theorem exactEnd_between (file : String) (source : List Char) :
    (between file source []).location.ExactEnd source := by
  obtain ⟨start, hlast, hlength⟩ := lastLine_takeWhile source
  refine ⟨?_, ?_, start, hlast, ?_⟩
  · simp only [between, location, Place.location, Place.between, List.take_nil, List.length_nil]
    omega
  · simp [between, location, Place.location, Place.between]
  · simp only [between, location, Place.location, Place.between, List.take_nil, List.length_nil]
    omega

end Cursor

/-! ### Items that are read -/

namespace Item

/-- The text that an item was read from. -/
def text : Item → List Char
  | token t => t.lexeme.toList
  | malformed fault => fault.literal.toList

/-- The place that an item reports, a malformed literal in its diagnostic. -/
def location? : Item → Option Location
  | token t => t.location
  | malformed fault => fault.diagnostic.location

end Item

theorem Spells.text_eq {text rest : List Char} {item : Item} (h : Spells text rest item) :
    item.text = text := by
  cases h with
  | symbol ht => rw [ht, Item.text, String.toList_singleton]
  | _ => exact String.toList_ofList

theorem location?_numberItem (run : List Char) (location : Location) :
    (numberItem run location).2.location? = some location := by
  unfold numberItem
  cases numberPart? run with
  | none => rfl
  | some part => rfl

namespace Cursor

variable {file : String} {passed text rest : List Char}

/-- An item reports the place of the cursor that reads it. -/
theorem location?_item (c : Cursor) : c.item.2.1.location? = some c.location := by
  unfold item
  split
  · rfl
  · split
    · rfl
    · split
      · exact location?_numberItem _ _
      · rfl

/-- What is read next between two parts of a source: an item of the second part, or its end. -/
theorem next_between (file : String) (passed text : List Char) :
    (∃ gap own rest notes item, text = gap ++ (own ++ rest) ∧ Spells own rest item ∧
      item.location? = some (between file (passed ++ gap) (own ++ rest)).location ∧
      (between file passed text).next =
        (⟨notes, item⟩, between file (passed ++ gap ++ own) rest)) ∨
    ∃ notes, (between file passed text).next =
      (⟨notes, .token ⟨.eof, "", (between file (passed ++ text) []).location⟩⟩,
        between file (passed ++ text) []) := by
  obtain ⟨gap, tail, rfl, _, hfree, hgap⟩ := passGap_between file passed text
  cases tail with
  | nil =>
    right
    obtain ⟨notes, hnext⟩ := next_of_gap rfl hgap rfl
    rw [List.append_nil] at hnext ⊢
    exact ⟨notes, hnext⟩
  | cons x tail =>
    left
    obtain ⟨own, rest, notes, item, htail, hspells, _, hitem⟩ :=
      item_between file (passed ++ gap) hfree
    obtain ⟨notes, hnext⟩ := next_of_gap rfl hgap hitem
    have hlocation := location?_item (between file (passed ++ gap) (x :: tail))
    rw [hitem, htail] at hlocation
    rw [htail] at hnext ⊢
    exact ⟨gap, own, rest, notes, item, rfl, hspells, hlocation, hnext⟩

/-- The cursor once the next item has been read `n` times. -/
def afterItems : Nat → Cursor → Cursor
  | 0, c => c
  | n + 1, c => (afterItems n c).next.2

/-- However often an item has been read, the cursor goes on like one between two parts of the
source. Only before the first item it is not one itself. -/
theorem next_afterItems (file : String) (source : List Char) (n : Nat) :
    ∃ passed text, source = passed ++ text ∧
      ((start file source).afterItems n).next = (between file passed text).next := by
  induction n with
  | zero => exact ⟨[], source, rfl, next_start file source⟩
  | succ n ih =>
    obtain ⟨passed, text, rfl, hnext⟩ := ih
    rw [afterItems, hnext]
    rcases next_between file passed text with ⟨gap, own, rest, notes, item, rfl, _, _, hread⟩ |
      ⟨notes, hread⟩
    · exact ⟨passed ++ gap ++ own, rest, by simp, by rw [hread]⟩
    · exact ⟨passed ++ text, [], by simp, by rw [hread]⟩

/-- Whatever is read after any number of items: an item stands right in front of the text that is
then left, and the place that it reports is that of its first character; or the source is at its end
and that place is reported. -/
theorem positions_are_exact (file : String) (source : List Char) (n : Nat) :
    let read := ((start file source).afterItems n).next
    (read.1.item.isEnd = false ∧ ∃ index location,
      source = source.take index ++ (read.1.item.text ++ read.2.text) ∧ read.1.item.text ≠ [] ∧
      read.1.item.location? = some location ∧ location.ExactAt source index) ∨
    (read.1.item.isEnd = true ∧ ∃ location,
      read.2.text = [] ∧
      read.1.item.location? = some location ∧ location.ExactEnd source) := by
  intro read
  obtain ⟨passed, text, rfl, hnext⟩ := next_afterItems file source n
  have hread : read = (between file passed text).next := hnext
  rcases next_between file passed text with
    ⟨gap, own, rest, notes, item, rfl, hspells, hlocation, hitem⟩ | ⟨notes, hitem⟩
  · left
    rw [hread, hitem]
    obtain ⟨x, tail, hx⟩ := List.exists_cons_of_length_pos hspells.length_pos
    have hexact := exactAt_between file (passed ++ gap) x (tail ++ rest)
    rw [← List.cons_append, ← hx, List.append_assoc] at hexact
    refine ⟨hspells.isEnd, (passed ++ gap).length, _, ?_, ?_, hlocation, hexact⟩
    · rw [hspells.text_eq, ← List.append_assoc passed gap, List.take_left]
      rfl
    · rw [hspells.text_eq, hx]
      exact List.cons_ne_nil x tail
  · right
    rw [hread, hitem]
    exact ⟨rfl, _, rfl, rfl, exactEnd_between file (passed ++ text)⟩

/-- Behind a line feed the end is in the first column of a new line, with the offset of the line
feed. -/
example : ((start "" ['a', '\n']).afterItems 1).next.1.item.location? = some ⟨"", 2, 1, 1⟩ := rfl

end Cursor

/-! ### The tokens of a source -/

namespace Token

/-- The token reports this offset in the source, and the text there spells it. -/
structure StandsAt (t : Token) (source : List Char) (index : Nat) : Prop where
  place : ∃ location, t.location = some location ∧ location.offset = index
  spelled : ∃ text rest, source.drop index = text ++ rest ∧ Spells text rest (.token t)

/-- The first token reports a smaller offset than the second. -/
def Before (t u : Token) : Prop :=
  ∃ l m, t.location = some l ∧ u.location = some m ∧ l.offset < m.offset

theorem StandsAt.before {t u : Token} {source : List Char} {i j : Nat} (ht : t.StandsAt source i)
    (hu : u.StandsAt source j) (hlt : i < j) : t.Before u := by
  obtain ⟨l, hl, hi⟩ := ht.place
  obtain ⟨m, hm, hj⟩ := hu.place
  exact ⟨l, m, hl, hm, by omega⟩

end Token

/-- The tokens of what is left of a source stand in it one behind the other, and then comes the
end. -/
theorem Segmented.tokens {file : String} {passed text : List Char} {cursor : Cursor}
    {items : List Lexeme} (h : Segmented file passed text cursor items) {ts : List Token}
    (hts : tokensOf items = .ok ts) :
    ∃ own ending, ts = own ++ [ending] ∧ ending.kind = .eof ∧ ending.lexeme = "" ∧
      (∀ t ∈ own, ∃ index, passed.length ≤ index ∧ t.StandsAt (passed ++ text) index) ∧
      own.Pairwise Token.Before := by
  induction h generalizing ts with
  | ending =>
    cases hts
    exact ⟨[], _, rfl, rfl, rfl, by simp, .nil⟩
  | @item passed gap text rest cursor lexeme later _ hspells hoffset _ _ ih =>
    obtain ⟨notes, item⟩ := lexeme
    cases item with
    | malformed fault => cases hts
    | token t =>
      rw [tokensOf] at hts
      cases hlater : tokensOf later with
      | error fault =>
        rw [hlater] at hts
        cases hts
      | ok us =>
        rw [hlater] at hts
        cases hts
        obtain ⟨own, ending, rfl, hkind, hlexeme, hstand, hbefore⟩ := ih hlater
        have hsource : passed ++ gap ++ text ++ rest = passed ++ (gap ++ (text ++ rest)) := by simp
        rw [hsource] at hstand
        have hfirst : t.StandsAt (passed ++ (gap ++ (text ++ rest))) (passed ++ gap).length := by
          refine ⟨Option.map_eq_some_iff.1 hoffset, text, rest, ?_, hspells⟩
          rw [← List.append_assoc, List.drop_left]
        have hpos := hspells.length_pos
        refine ⟨t :: own, ending, rfl, hkind, hlexeme, ?_, List.pairwise_cons.2 ⟨?_, hbefore⟩⟩
        · intro u hu
          rcases List.mem_cons.1 hu with rfl | hu
          · exact ⟨_, by simp, hfirst⟩
          · obtain ⟨index, hle, hindex⟩ := hstand u hu
            simp only [List.length_append] at hle
            exact ⟨index, by omega, hindex⟩
        · intro u hu
          obtain ⟨index, hle, hindex⟩ := hstand u hu
          refine hfirst.before hindex ?_
          simp only [List.length_append] at hle ⊢
          omega

theorem tokens_of_tokenize {file : String} {source : List Char} {ts : List Token}
    (h : tokenize file source = .ok ts) :
    ∃ own ending, ts = own ++ [ending] ∧ ending.kind = .eof ∧ ending.lexeme = "" ∧
      (∀ t ∈ own, ∃ index, t.StandsAt source index) ∧ own.Pairwise Token.Before := by
  have hsegmented : Segmented file [] source (Cursor.start file source) (lexemes file source) :=
    segmented_lexemesFrom (Cursor.next_start file source) (Nat.lt_succ_self _)
  obtain ⟨own, ending, hts, hkind, hlexeme, hstand, hbefore⟩ := hsegmented.tokens h
  refine ⟨own, ending, hts, hkind, hlexeme, fun t ht => ?_, hbefore⟩
  obtain ⟨index, _, hindex⟩ := hstand t ht
  exact ⟨index, hindex⟩

end ScalarLang
