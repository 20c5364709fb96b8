import ScalarLang.Proofs.Token.Decimals
import ScalarLang.Proofs.Token.Positions

/-!
# Separators between tokens

Texts of tokens with any separators between them are read as those tokens: blanks, and comments that
a line feed or a carriage return closes. So a source says no more than its tokens, and writing these
out with blanks between them gives a source that says the same.
-/
namespace ScalarLang

/-! ### Separators -/

/-- Blanks and closed comments. -/
inductive Separator : List Char → Prop
  | nil : Separator []
  | blank {c : Char} {rest : List Char} (hc : Text.isBlank c = true) (h : Separator rest) :
      Separator (c :: rest)
  | comment {body rest : List Char} {ending : Char} (hbody : ∀ c ∈ body, endsLine c = false)
      (hending : endsLine ending = true) (h : Separator rest) :
      Separator ('#' :: (body ++ ending :: rest))

/-- What can stand behind the last token: a separator, and then a comment up to the end. -/
inductive Trailer : List Char → Prop
  | closed {gap : List Char} (h : Separator gap) : Trailer gap
  | unclosed {gap body : List Char} (h : Separator gap) (hbody : ∀ c ∈ body, endsLine c = false) :
      Trailer (gap ++ '#' :: body)

theorem Separator.gap_append {gap tail rest : List Char} (h : Separator gap) (ht : Gap tail rest) :
    Gap (gap ++ tail) rest := by
  induction h with
  | nil => exact ht
  | blank hc _ ih => exact .blank hc ih
  | @comment body more ending hbody hending _ ih =>
    have hstop : ∀ c, ((ending :: (more ++ tail)) ++ rest).head? = some c → endsLine c = true := by
      intro c hc
      cases hc
      exact hending
    have hgap := Gap.comment hbody hstop (.blank (isBlank_of_endsLine hending) ih)
    simpa using hgap

theorem Separator.gap {gap : List Char} (h : Separator gap) (rest : List Char) : Gap gap rest := by
  have hgap := h.gap_append (.nil rest)
  rwa [List.append_nil] at hgap

theorem Trailer.gap {gap : List Char} (h : Trailer gap) : Gap gap [] := by
  cases h with
  | closed h => exact h.gap []
  | unclosed h hbody =>
    have hopen : Gap ('#' :: (_ ++ [])) [] := .comment hbody (by simp) (.nil [])
    rw [List.append_nil] at hopen
    exact h.gap_append hopen

/-! ### Texts of tokens -/

/-- A word, a run of digits and points that starts with a decimal literal, or a symbol. -/
inductive TokenText : List Char → Prop
  | word {text : List Char} (h : Wordlike text) : TokenText text
  | number {text part : List Char} (hrun : ∀ c ∈ text, isNumeric c = true) (hpart : part <+: text)
      (h : IsLiteral part) : TokenText text
  | symbol {c : Char} (h : IsSymbol c) : TokenText [c]

theorem IsLiteral.ne_nil {text : List Char} (h : IsLiteral text) : text ≠ [] := by
  obtain ⟨c, hc, _⟩ := h.digit
  exact List.ne_nil_of_mem hc

theorem TokenText.exists_piece {text : List Char} (h : TokenText text) :
    ∃ p : Piece, p.text = text := by
  cases h with
  | word h => exact ⟨⟨text, _, spells_wordKind (.alone h) none⟩, rfl⟩
  | number hrun hpart h =>
    obtain ⟨own, hown⟩ := numberPart?_of_prefix hrun hpart h
    have hne : text ≠ [] := by
      rintro rfl
      exact h.ne_nil (List.prefix_nil.1 hpart)
    exact ⟨⟨text, _, .number (.alone ⟨hne, hrun⟩) hown⟩, rfl⟩
  | symbol h => exact ⟨.symbol _ h, rfl⟩

theorem Spells.alone {text rest : List Char} {t : Token} (h : Spells text rest (.token t)) :
    Spells text [] (.token ⟨t.kind, String.ofList text, none⟩) := by
  cases h with
  | define h ht => exact .define (.alone h.holds) ht
  | external h ht => exact .external (.alone h.holds) ht
  | identifier h hdefine hexternal => exact .identifier (.alone h.holds) hdefine hexternal
  | number h hpart => exact .number (.alone h.holds) hpart
  | symbol ht hblank halnum hpoint hhash =>
    subst ht
    exact .symbol rfl hblank halnum hpoint hhash

/-- Where the text is the whole source, it is read as one token of this kind. -/
def ReadAlone (text : List Char) (kind : TokenKind) : Prop :=
  ∀ file, ∃ location ending, ending.isEnd = true ∧
    tokenize file text = .ok [⟨kind, String.ofList text, location⟩, ending]

theorem Piece.readAlone (p : Piece) : ReadAlone p.text p.kind := by
  intro file
  have hlayout : Layout [p] ([] ++ (p.text ++ [])) := .piece (.nil _) p.spells (.ending (.nil []))
  rw [List.nil_append, List.append_nil] at hlayout
  obtain ⟨tokens, ending, htokens, hending, hkinds⟩ := tokenize_of_layout hlayout file
  obtain ⟨t, rfl, ht⟩ := List.map_eq_singleton_iff.1 hkinds
  obtain ⟨kind, lexeme, location⟩ := t
  cases ht
  exact ⟨location, ending, hending, htokens⟩

/-! ### Texts with separators -/

/-- The text of a token with the separator in front of it. -/
structure SeparatedText where
  separator : List Char
  text : List Char

/-- Texts of tokens with separators in front of them, of which only the first can be empty, and with
what stands behind the last. -/
structure Arrangement where
  items : List SeparatedText
  trailer : List Char
  separators : ∀ s ∈ items, Separator s.separator
  texts : ∀ s ∈ items, TokenText s.text
  apart : ∀ s ∈ items.tail, s.separator ≠ []
  trails : Trailer trailer

/-- The texts with their separators, one behind the other, and then the trailer. -/
def joinTexts (items : List SeparatedText) (trailer : List Char) : List Char :=
  items.flatMap (fun s => s.separator ++ s.text) ++ trailer

def Arrangement.source (a : Arrangement) : List Char := joinTexts a.items a.trailer

theorem layout_of_separated {items : List SeparatedText} {trailer : List Char} {ps : List Piece}
    (hps : ps.map Piece.text = items.map SeparatedText.text)
    (hseparators : ∀ s ∈ items, Separator s.separator)
    (hapart : ∀ s ∈ items.tail, s.separator ≠ []) (htrailer : Trailer trailer) :
    Layout ps (joinTexts items trailer) := by
  induction items generalizing ps with
  | nil =>
    obtain rfl := List.map_eq_nil_iff.1 hps
    exact .ending htrailer.gap
  | cons s items ih =>
    obtain ⟨p, ps, rfl, hp, hps⟩ := List.map_eq_cons_iff.1 hps
    obtain ⟨hfirst, hseparators⟩ := List.forall_mem_cons.1 hseparators
    have hlayout := ih hps hseparators fun t ht => hapart t (List.mem_of_mem_tail ht)
    -- The piece ends where the next separator or the trailer begins, or the source ends.
    have hbefore : p.Before (joinTexts items trailer) := by
      cases items with
      | nil =>
        by_cases hnone : trailer = []
        · rw [joinTexts, hnone]
          exact p.spells
        · have hgap := p.before_gap htrailer.gap hnone
          rwa [List.append_nil] at hgap
      | cons next items =>
        obtain ⟨hnext, _⟩ := List.forall_mem_cons.1 hseparators
        have hgap := p.before_gap (hnext.gap (next.text ++ joinTexts items trailer))
          (hapart next (List.mem_cons_self ..))
        simpa [joinTexts] using hgap
    have hpiece := Layout.piece (hfirst.gap _) hbefore hlayout
    rw [hp] at hpiece
    simpa [joinTexts] using hpiece

theorem exists_pieces {texts : List (List Char)}
    (h : ∀ text ∈ texts, ∃ p : Piece, p.text = text) :
    ∃ ps : List Piece, ps.map Piece.text = texts := by
  induction texts with
  | nil => exact ⟨[], rfl⟩
  | cons text texts ih =>
    obtain ⟨⟨p, hp⟩, h⟩ := List.forall_mem_cons.1 h
    obtain ⟨ps, hps⟩ := ih h
    exact ⟨p :: ps, by rw [List.map_cons, hp, hps]⟩

theorem forall₂_of_maps {items : List SeparatedText} {ps : List Piece} {tokens : List Token}
    (hps : ps.map Piece.text = items.map SeparatedText.text)
    (htokens : tokens.map (fun t => (t.kind, t.lexeme)) =
      ps.map fun p => (p.kind, String.ofList p.text)) :
    List.Forall₂ (fun s t => t.lexeme = String.ofList s.text ∧ ReadAlone s.text t.kind)
      items tokens := by
  induction items generalizing ps tokens with
  | nil =>
    obtain rfl := List.map_eq_nil_iff.1 hps
    obtain rfl := List.map_eq_nil_iff.1 htokens
    exact .nil
  | cons s items ih =>
    obtain ⟨p, ps, rfl, hp, hps⟩ := List.map_eq_cons_iff.1 hps
    obtain ⟨t, tokens, rfl, ht, htokens⟩ := List.map_eq_cons_iff.1 htokens
    obtain ⟨hkind, hlexeme⟩ := Prod.mk.inj ht
    refine .cons ⟨by rw [hlexeme, hp], ?_⟩ (ih hps htokens)
    rw [hkind, ← hp]
    exact p.readAlone

/-! ### Writing tokens out -/

/-- Texts with a blank between each and the next. -/
def spaced (texts : List (List Char)) : List Char := [' '].intercalate texts

theorem spaced_cons (text : List Char) (texts : List (List Char)) :
    spaced (text :: texts) = text ++ texts.flatMap (' ' :: ·) := by
  induction texts generalizing text with
  | nil => simp [spaced, List.intercalate]
  | cons next texts ih =>
    have hstep : spaced (text :: next :: texts) = text ++ ' ' :: spaced (next :: texts) := by
      simp [spaced, List.intercalate, List.intersperse]
    rw [hstep, ih, List.flatMap_cons, List.cons_append]

def spacedTexts : List (List Char) → List SeparatedText
  | [] => []
  | text :: texts => ⟨[], text⟩ :: texts.map fun text => ⟨[' '], text⟩

theorem spaced_eq_join (texts : List (List Char)) :
    spaced texts = joinTexts (spacedTexts texts) [] := by
  cases texts with
  | nil => rfl
  | cons text texts => simp [spaced_cons, joinTexts, spacedTexts, List.flatMap_map]

theorem separator_blank : Separator [' '] := .blank (by decide) .nil

/-- The end of a source has no text, so written out it adds a blank at most. -/
theorem spaced_append_nil (texts : List (List Char)) :
    ∃ trailer, Trailer trailer ∧
      spaced (texts ++ [[]]) = joinTexts (spacedTexts texts) trailer := by
  cases texts with
  | nil => exact ⟨[], .closed .nil, rfl⟩
  | cons text texts =>
    refine ⟨[' '], .closed separator_blank, ?_⟩
    rw [List.cons_append, spaced_cons]
    simp [joinTexts, spacedTexts, List.flatMap_map]

theorem layout_of_spaced {ps : List Piece} {texts : List (List Char)} {trailer : List Char}
    (hps : ps.map Piece.text = texts) (htrailer : Trailer trailer) :
    Layout ps (joinTexts (spacedTexts texts) trailer) := by
  cases texts with
  | nil =>
    obtain rfl := List.map_eq_nil_iff.1 hps
    exact .ending htrailer.gap
  | cons text texts =>
    refine layout_of_separated ?_ ?_ ?_ htrailer
    · simpa [spacedTexts, Function.comp_def] using hps
    · simpa [spacedTexts] using ⟨Separator.nil, fun _ _ => separator_blank⟩
    · simp [spacedTexts]

/-- What a token says apart from its place: its lexeme, and its kind with the value. -/
def Token.shape (t : Token) : TokenKind × String := (t.kind, t.lexeme)

theorem shapes_of_layout {own : List Token} {source : List Char}
    (h : ∀ t ∈ own, ∃ index, t.StandsAt source index) :
    ∃ ps : List Piece, ps.map Piece.text = own.map (·.lexeme.toList) ∧
      ps.map (fun p => (p.kind, String.ofList p.text)) = own.map Token.shape := by
  induction own with
  | nil => exact ⟨[], rfl, rfl⟩
  | cons t own ih =>
    obtain ⟨⟨index, hindex⟩, h⟩ := List.forall_mem_cons.1 h
    obtain ⟨text, rest, _, hspells⟩ := hindex.spelled
    have htext : t.lexeme.toList = text := hspells.text_eq
    have hlexeme : String.ofList text = t.lexeme := by rw [← htext, String.ofList_toList]
    obtain ⟨ps, htexts, hshapes⟩ := ih h
    refine ⟨⟨text, t.kind, hspells.alone⟩ :: ps, ?_, ?_⟩
    · rw [List.map_cons, List.map_cons, htexts, htext]
    · rw [List.map_cons, List.map_cons, hshapes, hlexeme, Token.shape]

/-- Texts of tokens in any arrangement are read as the tokens that they are alone. The lexemes of a
source that can be read, with or without that of its end, give the same tokens again with blanks
between them. -/
theorem layout_does_not_matter (file : String) :
    (∀ a : Arrangement, ∃ tokens ending, tokenize file a.source = .ok (tokens ++ [ending]) ∧
      ending.isEnd = true ∧
      List.Forall₂ (fun s t => t.lexeme = String.ofList s.text ∧ ReadAlone s.text t.kind)
        a.items tokens) ∧
    ∀ source tokens, tokenize file source = .ok tokens →
      ∀ shown, shown = tokens ∨ shown = tokens.dropLast →
        ∃ again, tokenize file (spaced (shown.map (·.lexeme.toList))) = .ok again ∧
          again.map Token.shape = tokens.map Token.shape := by
  constructor
  · intro a
    have htexts : ∀ text ∈ a.items.map SeparatedText.text, ∃ p : Piece, p.text = text := by
      intro text htext
      obtain ⟨s, hs, rfl⟩ := List.mem_map.1 htext
      exact (a.texts s hs).exists_piece
    obtain ⟨ps, hps⟩ := exists_pieces htexts
    have hlayout := layout_of_separated hps a.separators a.apart a.trails
    obtain ⟨tokens, ending, htokens, hending, hkinds⟩ := tokenize_of_layout hlayout file
    exact ⟨tokens, ending, htokens, hending, forall₂_of_maps hps hkinds⟩
  · intro source tokens htokens shown hshown
    obtain ⟨own, ending, rfl, hkind, hlexeme, hstand, _⟩ := tokens_of_tokenize htokens
    obtain ⟨ps, htexts, hshapes⟩ := shapes_of_layout hstand
    rw [List.dropLast_concat] at hshown
    have hspaced : ∃ trailer, Trailer trailer ∧ spaced (shown.map (·.lexeme.toList)) =
        joinTexts (spacedTexts (own.map (·.lexeme.toList))) trailer := by
      rcases hshown with rfl | rfl
      · rw [List.map_append, List.map_singleton, hlexeme]
        exact spaced_append_nil _
      · exact ⟨[], .closed .nil, spaced_eq_join _⟩
    obtain ⟨trailer, htrailer, hspaced⟩ := hspaced
    obtain ⟨again, last, hagain, _, hkinds⟩ :=
      tokenize_of_layout (layout_of_spaced htexts htrailer) file
    obtain ⟨_, _, heq, hlast, hempty, _, _⟩ := tokens_of_tokenize hagain
    obtain ⟨rfl, hlasts⟩ := List.append_inj' heq rfl
    cases hlasts
    refine ⟨again ++ [last], by rw [hspaced, hagain], ?_⟩
    rw [List.map_append, List.map_append, List.map_singleton, List.map_singleton, Token.shape,
      Token.shape, hkind, hlexeme, hlast, hempty, ← hshapes, ← hkinds]
    rfl

/-- Comments right behind a name and a literal, one that a carriage return closes, two in a row, and
one that stays open. -/
def Arrangement.commented : Arrangement where
  items := [⟨[], ['x']⟩, ⟨['#', 'c', '\r'], ['1', '.', '5', '.', '2']⟩,
    ⟨['#', '\n', '#', 'b', '\n'], ['+']⟩]
  trailer := ['#', 'z']
  separators := by
    have hfirst : Separator ['#', 'c', '\r'] :=
      @Separator.comment ['c'] [] '\r' (List.forall_mem_singleton.2 rfl) rfl .nil
    have hthird : Separator ['#', 'b', '\n'] :=
      @Separator.comment ['b'] [] '\n' (List.forall_mem_singleton.2 rfl) rfl .nil
    have hsecond := @Separator.comment [] _ '\n' (List.forall_mem_nil _) rfl hthird
    simpa using ⟨Separator.nil, hfirst, hsecond⟩
  texts := by
    have hname : TokenText ['x'] := .word ⟨'x', [], rfl, rfl, List.forall_mem_nil _⟩
    have hrun : ['1', '.', '5', '.', '2'].all isNumeric = true := rfl
    have hpart : IsLiteral ['1', '.', '5'] :=
      isLiteral_of_point (List.forall_mem_singleton.2 rfl) (List.forall_mem_singleton.2 rfl)
        (List.cons_ne_nil _ _)
    have hnumber := TokenText.number (List.all_eq_true.1 hrun) ⟨['.', '2'], rfl⟩ hpart
    simpa using ⟨hname, hnumber, TokenText.symbol ⟨rfl, rfl, by simp, by simp⟩⟩
  apart := by simp
  trails := @Trailer.unclosed [] ['z'] .nil (List.forall_mem_singleton.2 rfl)

theorem layout_does_not_matter_commented :
    ∃ tokens, tokenize "" "x#c\r1.5.2#\n#b\n+#z".toList = .ok tokens ∧
      tokens.dropLast.map Token.lexeme = ["x", "1.5.2", "+"] ∧
      ∃ again, tokenize "" "x 1.5.2 +".toList = .ok again ∧
        again.map Token.shape = tokens.map Token.shape := by
  obtain ⟨tokens, ending, htokens, _, hsame⟩ := (layout_does_not_matter "").1 .commented
  have hlexemes : tokens.map Token.lexeme = ["x", "1.5.2", "+"] := by
    cases hsame with
    | cons h₁ hsame =>
      cases hsame with
      | cons h₂ hsame =>
        cases hsame with
        | cons h₃ hsame =>
          cases hsame with
          | nil => rw [List.map_cons, List.map_cons, List.map_singleton, h₁.1, h₂.1, h₃.1]
  obtain ⟨again, hagain, hshapes⟩ :=
    (layout_does_not_matter "").2 _ _ htokens _ (Or.inr rfl)
  rw [List.dropLast_concat] at hagain
  refine ⟨_, htokens, by rw [List.dropLast_concat, hlexemes], again, ?_, hshapes⟩
  have hspaced : tokens.map (·.lexeme.toList) = (tokens.map Token.lexeme).map String.toList := by
    rw [List.map_map]
    rfl
  rw [hspaced, hlexemes] at hagain
  exact hagain

end ScalarLang
