import ScalarLang.Proofs.Token.Juncture
import ScalarLang.Proofs.Token.Segmentation

/-!
# Laying out tokens

A text in which the texts of tokens stand one after the other, with gaps between them, is read as
these tokens. A gap may only be missing where the text behind a token would not be taken for more of
it; any gap that is not empty keeps two tokens apart.
-/
namespace ScalarLang

/-! ### Gaps in front of a text -/

theorem behindGap_comment {body tail : List Char} (hbody : ∀ c ∈ body, endsLine c = false)
    (hstop : ∀ c, tail.head? = some c → endsLine c = true) :
    behindGap true (body ++ tail) = behindGap false tail := by
  induction body with
  | nil =>
    cases tail with
    | nil => rfl
    | cons c rest =>
      have hline := hstop c rfl
      simp only [List.nil_append, behindGap, hline, isBlank_of_endsLine hline, if_true,
        Bool.not_true]
  | cons c body ih =>
    have hopen := hbody c (List.mem_cons_self ..)
    rw [List.cons_append, behindGap, hopen]
    exact ih fun d hd => hbody d (List.mem_cons_of_mem _ hd)

theorem Gap.behind {gap rest : List Char} (h : Gap gap rest) (hfree : GapFree rest) :
    behindGap false (gap ++ rest) = rest := by
  induction h with
  | nil rest =>
    cases rest with
    | nil => rfl
    | cons c rest =>
      obtain ⟨hblank, hhash⟩ := hfree c rfl
      simp [behindGap, hblank, hhash]
  | blank hc _ ih =>
    rw [List.cons_append, behindGap, if_pos hc]
    exact ih hfree
  | @comment body gap rest hbody hstop _ ih =>
    have hblank : ¬ Text.isBlank '#' = true := by simp [isBlank_hash]
    rw [List.cons_append, behindGap, if_neg hblank, if_pos rfl, List.append_assoc,
      behindGap_comment hbody hstop]
    exact ih hfree

theorem Cursor.passGap_of_gap {gap rest : List Char} (h : Gap gap rest) (hfree : GapFree rest)
    (file : String) (passed : List Char) :
    (between file passed (gap ++ rest)).passGap.2 = between file (passed ++ gap) rest := by
  obtain ⟨gap', rest', heq, _, _, hpass⟩ := passGap_between file passed (gap ++ rest)
  have htext : (between file passed (gap ++ rest)).passGap.2.text = rest :=
    (text_passGap _).trans (h.behind hfree)
  rw [hpass] at htext
  obtain rfl : rest' = rest := htext
  obtain rfl : gap = gap' := List.append_cancel_right heq
  exact hpass

/-! ### Tokens in front of a text -/

theorem isBlank_of_visible {c : Char} (hlow : 32 < c.toNat) (hhigh : c.toNat < 127) :
    Text.isBlank c = false := by
  simp only [Text.isBlank, Text.blankRanges, List.any_cons, List.any_nil, Bool.or_false]
  simp only [Bool.or_eq_false_iff, Bool.and_eq_false_iff, decide_eq_false_iff_not]
  omega

theorem visible_of_isAlphanum {c : Char} (h : c.isAlphanum = true) :
    32 < c.toNat ∧ c.toNat < 127 := by
  rcases Bool.or_eq_true_iff.1 h with halpha | hdigit
  · obtain ⟨hlow, hhigh⟩ := toNat_of_isAlpha halpha
    omega
  · obtain ⟨hlow, hhigh⟩ := toNat_of_isDigit hdigit
    omega

/-- A gap starts neither with a letter or a digit nor with a point. -/
theorem Gap.starts {gap rest : List Char} (h : Gap gap rest) :
    ∀ c, gap.head? = some c → c.isAlphanum = false ∧ isNumeric c = false := by
  intro c hc
  have hother : ∀ d : Char, d = '#' ∨ Text.isBlank d = true →
      d.isAlphanum = false ∧ isNumeric d = false := by
    intro d hd
    have halnum : d.isAlphanum = false := by
      by_contra hclass
      obtain ⟨hlow, hhigh⟩ := visible_of_isAlphanum (by simpa using hclass)
      rcases hd with rfl | hblank
      · exact absurd hclass (by decide)
      · rw [isBlank_of_visible hlow hhigh] at hblank
        cases hblank
    have hpoint : d ≠ '.' := by
      rintro rfl
      rcases hd with hd | hd
      · exact absurd hd (by decide)
      · exact absurd hd (by decide)
    have hdigit : d.isDigit = false := by
      simp only [Char.isAlphanum, Bool.or_eq_false_iff] at halnum
      exact halnum.2
    exact ⟨halnum, by simp [isNumeric, hdigit, hpoint]⟩
  cases h with
  | nil => cases hc
  | blank hblank _ =>
    cases hc
    exact hother _ (Or.inr hblank)
  | comment _ _ _ =>
    cases hc
    exact hother _ (Or.inl rfl)

theorem gapFree_of_visible {c : Char} (hlow : 32 < c.toNat) (hhigh : c.toNat < 127)
    (hhash : c ≠ '#') (rest : List Char) : GapFree (c :: rest) := by
  intro d hd
  cases hd
  exact ⟨isBlank_of_visible hlow hhigh, hhash⟩

theorem Wordlike.gapFree {text : List Char} (h : Wordlike text) (rest : List Char) :
    GapFree (text ++ rest) := by
  obtain ⟨x, tail, rfl, hx, _⟩ := h
  have halnum : x.isAlphanum = true := by simp [Char.isAlphanum, hx]
  obtain ⟨hlow, hhigh⟩ := visible_of_isAlphanum halnum
  refine gapFree_of_visible hlow hhigh ?_ _
  rintro rfl
  cases hx

theorem Numberlike.gapFree {text : List Char} (h : Numberlike text) (rest : List Char) :
    GapFree (text ++ rest) := by
  obtain ⟨hne, hall⟩ := h
  obtain ⟨x, tail, rfl⟩ := List.exists_cons_of_ne_nil hne
  have hx := hall x (List.mem_cons_self ..)
  simp only [isNumeric, Bool.or_eq_true, beq_iff_eq] at hx
  rcases hx with hdigit | rfl
  · have halnum : x.isAlphanum = true := by simp [Char.isAlphanum, hdigit]
    obtain ⟨hlow, hhigh⟩ := visible_of_isAlphanum halnum
    refine gapFree_of_visible hlow hhigh ?_ _
    rintro rfl
    cases hdigit
  · exact gapFree_of_visible (by decide) (by decide) (by decide) _

theorem Spells.gapFree {text rest : List Char} {item : Item} (h : Spells text rest item) :
    GapFree (text ++ rest) := by
  cases h with
  | define h _ | external h _ | identifier h _ _ => exact h.holds.gapFree rest
  | number h _ | malformed h _ => exact h.holds.gapFree rest
  | symbol ht hblank _ _ hhash =>
    subst ht
    intro d hd
    cases hd
    exact ⟨hblank, hhash⟩

/-- A text that is read as a token alone is read as that in front of any text that does not go on
with it. -/
theorem Longest.before {property : List Char → Prop} {p : Char → Bool} {text rest : List Char}
    (h : Longest property text []) (hall : ∀ other, property other → ∀ c ∈ other, p c = true)
    (hrest : ∀ c, rest.head? = some c → p c = false) : Longest property text rest where
  holds := h.holds
  longest other hother hproperty := by
    obtain ⟨more, hmore⟩ := hother
    have hrun : (other ++ more).takeWhile p = text := by
      rw [hmore, takeWhile_append_of_stop _ hrest, List.takeWhile_eq_self_iff]
      exact hall text h.holds
    rw [List.takeWhile_append_of_pos (hall other hproperty)] at hrun
    rw [← hrun, List.length_append]
    exact Nat.le_add_right _ _

theorem Spells.before {text rest : List Char} {item : Item} (h : Spells text [] item)
    (hrest : ∀ c, rest.head? = some c → c.isAlphanum = false ∧ isNumeric c = false) :
    Spells text rest item := by
  have hword : Longest Wordlike text [] → Longest Wordlike text rest :=
    fun h => h.before (fun _ hother => hother.alphanum) fun c hc => (hrest c hc).1
  have hnumber : Longest Numberlike text [] → Longest Numberlike text rest :=
    fun h => h.before (fun _ hother => hother.2) fun c hc => (hrest c hc).2
  cases h with
  | define h ht => exact .define (hword h) ht
  | external h ht => exact .external (hword h) ht
  | identifier h hdefine hexternal => exact .identifier (hword h) hdefine hexternal
  | number h hpart => exact .number (hnumber h) hpart
  | malformed h hpart => exact .malformed (hnumber h) hpart
  | symbol ht hblank halnum hpoint hhash => exact .symbol ht hblank halnum hpoint hhash

/-- The cursor reads what a text spells, and says where it stands. -/
theorem Cursor.item_of_spells {text rest : List Char} {t : Token}
    (h : Spells text rest (.token t)) (file : String) (passed : List Char) :
    ∃ notes location, (between file passed (text ++ rest)).item =
      (notes, .token { t with location }, between file (passed ++ text) rest) := by
  cases h with
  | define h ht =>
    have hkind : wordKind (String.ofList text) = .define := by
      rw [ht]
      rfl
    rw [← hkind]
    exact ⟨_, _, item_of_word file passed h⟩
  | external h ht =>
    have hkind : wordKind (String.ofList text) = .external := by
      rw [ht]
      rfl
    rw [← hkind]
    exact ⟨_, _, item_of_word file passed h⟩
  | identifier h hdefine hexternal =>
    have hkind : wordKind (String.ofList text) = .identifier (String.ofList text) := by
      rw [wordKind, if_neg fun heq => hdefine (by rw [← heq, String.toList_ofList]),
        if_neg fun heq => hexternal (by rw [← heq, String.toList_ofList])]
    rw [← hkind]
    exact ⟨_, _, item_of_word file passed h⟩
  | number h hpart =>
    have hitem := item_of_number file passed h
    simp only [numberItem, hpart] at hitem
    exact ⟨_, _, hitem⟩
  | symbol ht _ halnum hpoint _ =>
    subst ht
    exact ⟨_, _, item_of_symbol file passed rest halnum hpoint⟩

/-! ### Layouts -/

/-- The text of a token, with the kind that the token has. -/
structure Piece where
  text : List Char
  kind : TokenKind
  spells : Spells text [] (.token ⟨kind, String.ofList text, none⟩)

/-- The text of the piece is read as that token also in front of `rest`. -/
def Piece.Before (p : Piece) (rest : List Char) : Prop :=
  Spells p.text rest (.token ⟨p.kind, String.ofList p.text, none⟩)

/-- A text in which pieces stand one after the other, with gaps around and between them. -/
inductive Layout : List Piece → List Char → Prop
  | ending {gap : List Char} (hgap : Gap gap []) : Layout [] gap
  | piece {p : Piece} {ps : List Piece} {gap rest : List Char} (hgap : Gap gap (p.text ++ rest))
      (hp : p.Before rest) (h : Layout ps rest) : Layout (p :: ps) (gap ++ (p.text ++ rest))

/-- Any gap that is not empty keeps a piece apart from what follows. -/
theorem Piece.before_gap (p : Piece) {gap rest : List Char} (hgap : Gap gap rest) (hne : gap ≠ []) :
    p.Before (gap ++ rest) := by
  obtain ⟨x, tail, rfl⟩ := List.exists_cons_of_ne_nil hne
  exact p.spells.before fun c hc => hgap.starts c hc

/-- Nothing can be missing between two pieces if what follows the first is neither a letter nor a
digit nor a point. -/
theorem Piece.before_cons (p : Piece) {c : Char} (halnum : c.isAlphanum = false)
    (hnumeric : isNumeric c = false) (rest : List Char) : p.Before (c :: rest) := by
  refine p.spells.before fun d hd => ?_
  cases hd
  exact ⟨halnum, hnumeric⟩

theorem Layout.spaced {p : Piece} {ps : List Piece} {gap between rest : List Char}
    (hgap : Gap gap (p.text ++ (between ++ rest))) (hbetween : Gap between rest)
    (hne : between ≠ []) (h : Layout ps (between ++ rest)) :
    Layout (p :: ps) (gap ++ (p.text ++ (between ++ rest))) :=
  .piece hgap (p.before_gap hbetween hne) h

theorem tokensOf_end {c after : Cursor} {notes : List Note} {t : Token}
    (hnext : c.next = (⟨notes, .token t⟩, after)) (ht : t.isEnd = true) (fuel : Nat) :
    tokensOf (lexemesFrom (fuel + 1) c) = .ok [t] := by
  have hitem : (Item.token t).isEnd = true := ht
  simp only [lexemesFrom, hnext, hitem, if_true]
  exact tokensOf_token notes t rfl

theorem tokensOf_more {c after : Cursor} {notes : List Note} {t : Token} {ts : List Token}
    {fuel : Nat} (hnext : c.next = (⟨notes, .token t⟩, after)) (ht : t.isEnd = false)
    (h : tokensOf (lexemesFrom fuel after) = .ok ts) :
    tokensOf (lexemesFrom (fuel + 1) c) = .ok (t :: ts) := by
  have hitem : (Item.token t).isEnd = false := ht
  simp only [lexemesFrom, hnext, hitem, Bool.false_eq_true, if_false]
  exact tokensOf_token notes t h

/-- The cursor takes one piece after the other, each with the gap in front of it. It need not stand
between the two texts itself, as long as it goes on like one that does; the first cursor does not. -/
theorem lexemesFrom_of_layout {ps : List Piece} {source : List Char} (h : Layout ps source)
    {file : String} {passed : List Char} {c : Cursor} {fuel : Nat}
    (hc : c.next = (Cursor.between file passed source).next) (hfuel : source.length < fuel) :
    ∃ tokens ending, tokensOf (lexemesFrom fuel c) = .ok (tokens ++ [ending]) ∧
      ending.isEnd = true ∧
      tokens.map (fun t => (t.kind, t.lexeme)) =
        ps.map fun p => (p.kind, String.ofList p.text) := by
  induction h generalizing passed c fuel with
  | @ending gap hgap =>
    obtain ⟨fuel, rfl⟩ : ∃ k, fuel = k + 1 := ⟨fuel - 1, by omega⟩
    have hover : (Cursor.between file (passed ++ gap) []).item = ([], .token ⟨.eof, "", _⟩, _) :=
      rfl
    have hpass := Cursor.passGap_of_gap hgap (by simp [GapFree]) file passed
    rw [← List.append_nil gap] at hc
    obtain ⟨own, hnext⟩ := Cursor.next_of_gap hc hpass hover
    exact ⟨[], _, tokensOf_end hnext rfl fuel, rfl, rfl⟩
  | @piece p ps gap rest hgap hp _ ih =>
    obtain ⟨fuel, rfl⟩ : ∃ k, fuel = k + 1 := ⟨fuel - 1, by omega⟩
    have hpass := Cursor.passGap_of_gap hgap hp.gapFree file passed
    obtain ⟨notes, location, hitem⟩ := Cursor.item_of_spells hp file (passed ++ gap)
    obtain ⟨own, hnext⟩ := Cursor.next_of_gap hc hpass hitem
    have hopen : Token.isEnd ⟨p.kind, String.ofList p.text, location⟩ = false := hp.isEnd
    have hfewer : rest.length < fuel := by
      have hpos := hp.length_pos
      simp only [List.length_append] at hfuel
      omega
    obtain ⟨tokens, ending, htokens, hending, hkinds⟩ :=
      @ih (passed ++ gap ++ p.text) _ fuel rfl hfewer
    refine ⟨_ :: tokens, ending, tokensOf_more hnext hopen htokens, hending, ?_⟩
    rw [List.map_cons, List.map_cons, hkinds]

theorem tokenize_of_layout {ps : List Piece} {source : List Char} (h : Layout ps source)
    (file : String) :
    ∃ tokens ending, tokenize file source = .ok (tokens ++ [ending]) ∧ ending.isEnd = true ∧
      tokens.map (fun t => (t.kind, t.lexeme)) =
        ps.map fun p => (p.kind, String.ofList p.text) :=
  lexemesFrom_of_layout h (Cursor.next_start file source) (Nat.lt_succ_self _)

/-! ### Names, numbers and symbols -/

theorem Longest.alone {property : List Char → Prop} {text : List Char} (h : property text) :
    Longest property text [] where
  holds := h
  longest other hother _ := by
    rw [List.append_nil] at hother
    exact hother.length_le

/-- A letter, and then letters and digits, but no keyword. -/
structure IsName (name : String) : Prop where
  wordlike : Wordlike name.toList
  define : name ≠ "def"
  external : name ≠ "extern"

/-- Digits with at most one point among them, and at least one digit. -/
structure IsLiteral (text : List Char) : Prop where
  numeric : ∀ c ∈ text, isNumeric c = true
  point : text.count '.' ≤ 1
  digit : ∃ c ∈ text, c.isDigit = true

/-- A character that is a token of its own. -/
structure IsSymbol (c : Char) : Prop where
  blank : Text.isBlank c = false
  alphanum : c.isAlphanum = false
  point : c ≠ '.'
  hash : c ≠ '#'

theorem isDigit_of_isNumeric {c : Char} (h : isNumeric c = true) (hpoint : c ≠ '.') :
    c.isDigit = true := by
  simpa [isNumeric, hpoint] using h

theorem IsLiteral.numberPart_eq {text : List Char} (h : IsLiteral text) :
    numberPart? text = some text := by
  have hsplit : text.takeWhile Char.isDigit ++ text.dropWhile Char.isDigit = text :=
    List.takeWhile_append_dropWhile
  have hhead := List.head?_dropWhile_not Char.isDigit text
  unfold numberPart?
  generalize text.takeWhile Char.isDigit = whole at hsplit ⊢
  generalize text.dropWhile Char.isDigit = tail at hsplit hhead ⊢
  subst hsplit
  cases tail with
  | nil =>
    obtain ⟨c, hc, _⟩ := h.digit
    cases whole with
    | nil => cases hc
    | cons x rest => simp
  | cons c places =>
    have hnumeric : isNumeric c = true := h.numeric c (by simp)
    have hnodigit : c.isDigit = false := by simpa using hhead
    obtain rfl : c = '.' := by
      by_contra hpoint
      rw [isDigit_of_isNumeric hnumeric hpoint] at hnodigit
      cases hnodigit
    -- There is no second point, so only digits are left.
    have hplaces : places.takeWhile Char.isDigit = places := by
      rw [List.takeWhile_eq_self_iff]
      intro d hd
      refine isDigit_of_isNumeric (h.numeric d (by simp [hd])) ?_
      rintro rfl
      have hcount := h.point
      have hmore : 0 < places.count '.' := List.count_pos_iff.2 hd
      simp only [List.count_append, List.count_cons_self] at hcount
      omega
    cases whole with
    | nil =>
      cases places with
      | nil =>
        obtain ⟨d, hd, hdigit⟩ := h.digit
        rw [List.mem_singleton.1 hd] at hdigit
        exact absurd hdigit (by decide)
      | cons d rest => simp only [hplaces, List.nil_append]
    | cons x rest => simp only [hplaces]

namespace Piece

def define : Piece :=
  ⟨"def".toList, .define, .define (.alone ⟨'d', ['e', 'f'], rfl, rfl, List.all_eq_true.1 rfl⟩) rfl⟩

def external : Piece :=
  ⟨"extern".toList, .external,
    .external (.alone ⟨'e', ['x', 't', 'e', 'r', 'n'], rfl, rfl, List.all_eq_true.1 rfl⟩) rfl⟩

def name (own : String) (h : IsName own) : Piece where
  text := own.toList
  kind := .identifier own
  spells := by
    have hdefine : own.toList ≠ "def".toList := fun heq => h.define (String.toList_injective heq)
    have hexternal : own.toList ≠ "extern".toList :=
      fun heq => h.external (String.toList_injective heq)
    have hspells : Spells own.toList []
        (.token ⟨.identifier (String.ofList own.toList), String.ofList own.toList, none⟩) :=
      .identifier (.alone h.wordlike) hdefine hexternal
    rwa [String.ofList_toList] at hspells ⊢

def literal (own : List Char) (h : IsLiteral own) : Piece where
  text := own
  kind := .number (Decimal.literalValue own)
  spells := by
    have hne : own ≠ [] := by
      obtain ⟨c, hc, _⟩ := h.digit
      exact List.ne_nil_of_mem hc
    exact .number (.alone ⟨hne, h.numeric⟩) h.numberPart_eq

def symbol (c : Char) (h : IsSymbol c) : Piece where
  text := [c]
  kind := .symbol (String.singleton c)
  spells := .symbol rfl h.blank h.alphanum h.point h.hash

theorem symbol_before {c : Char} (h : IsSymbol c) (rest : List Char) :
    (symbol c h).Before rest :=
  .symbol rfl h.blank h.alphanum h.point h.hash

end Piece
end ScalarLang
