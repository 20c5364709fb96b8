import ScalarLang.Proofs.Parse.Alike
import ScalarLang.Proofs.Parse.Rows
import ScalarLang.Proofs.Token.Newlines

/-!
# Newline style does not change a program

What is read from a source is read from its translation, which has line feeds only: the same tokens
and the same forms up to places, or a failure with the same message. Two readers that have the same
items ahead go alike up to the end of their sources.
-/
namespace ScalarLang

/-! ### Outlines of a source -/

/-- The tokens of a source apart from their places, or the message of its first malformed
literal. -/
def outline (file : String) (source : List Char) : Except String (List (TokenKind × String)) :=
  ((tokenize file source).map (List.map Token.shape)).mapError fun fault =>
    fault.diagnostic.message

/-- The same, with the line and the column of every token, of the end and of the malformed
literal. -/
def placedOutline (file : String) (source : List Char) :
    Except (String × Option (Int × Int)) (List ((TokenKind × String) × Option (Int × Int))) :=
  ((tokenize file source).map
    (List.map fun t => (t.shape, t.location.map Location.lineColumn))).mapError fun fault =>
      (fault.diagnostic.message, fault.diagnostic.location.map Location.lineColumn)

/-- The forms of a source without their places, or the message of the first failure. -/
def formsOutline (ops : OperatorTable) (depth : Nat) (file : String) (source : List Char) :
    Except String (List Form) :=
  (((Parse.all ops depth).result (.ofSource file source)).map (List.map Form.unplaced)).mapError
    fun failure => failure.diagnostic.message

section Tokens

variable {source : List Char} {items others : List Lexeme}

/-- Whatever is kept of tokens and of malformed literals, if it is the same on both sides. -/
theorem tokensOf_congr {α ε : Type} {keep : Token → α} {report : Malformed → ε}
    (h : List.Forall₂ (fun l other => (∃ t u, l.item = .token t ∧ other.item = .token u ∧
        keep u = keep t) ∨ ∃ fault own, l.item = .malformed fault ∧ other.item = .malformed own ∧
        report own = report fault) items others) :
    ((tokensOf others).map (List.map keep)).mapError report =
      ((tokensOf items).map (List.map keep)).mapError report := by
  induction h with
  | nil => rfl
  | @cons l other rest rest' hitem _ ih =>
    obtain ⟨notes, item⟩ := l
    obtain ⟨own, item'⟩ := other
    rcases hitem with ⟨t, u, rfl, rfl, hkeep⟩ | ⟨fault, fault', rfl, rfl, hreport⟩
    · rw [tokensOf, tokensOf]
      cases htokens : tokensOf rest with
      | error e =>
        cases htokens' : tokensOf rest' with
        | error e' =>
          rw [htokens, htokens'] at ih
          have hsame := Except.error.inj ih
          exact congrArg Except.error hsame
        | ok us =>
          rw [htokens, htokens'] at ih
          cases ih
      | ok ts =>
        cases htokens' : tokensOf rest' with
        | error e' =>
          rw [htokens, htokens'] at ih
          cases ih
        | ok us =>
          rw [htokens, htokens'] at ih
          have hsame : us.map keep = ts.map keep := Except.ok.inj ih
          exact congrArg Except.ok (by rw [List.map_cons, List.map_cons, hkeep, hsame])
    · exact congrArg Except.error hreport

theorem Token.shape_of_unplaced {t u : Token} (h : t.unplaced = u.unplaced) :
    t.shape = u.shape := by
  have hkind := congrArg Token.kind h
  have hlexeme := congrArg Token.lexeme h
  exact Prod.ext hkind hlexeme

theorem SameUpToNewlines.cases {l other : Lexeme} (h : SameUpToNewlines source l other) :
    (∃ t u, l.item = .token t ∧ other.item = .token u ∧ u.shape = t.shape ∧
      (ReturnsPaired source → u.location.map Location.lineColumn =
        t.location.map Location.lineColumn)) ∨
    ∃ fault own, l.item = .malformed fault ∧ other.item = .malformed own ∧
      own.diagnostic.message = fault.diagnostic.message ∧
      (ReturnsPaired source → own.diagnostic.location.map Location.lineColumn =
        fault.diagnostic.location.map Location.lineColumn) := by
  have hplace := h.place
  rcases Item.cases_of_unplaced h.bare with ⟨t, u, ht, hu, hsame⟩ | ⟨fault, own, hf, ho, hliteral⟩
  · rw [ht, hu] at hplace
    exact Or.inl ⟨t, u, ht, hu, (Token.shape_of_unplaced hsame).symm, hplace⟩
  · rw [hf, ho] at hplace
    exact Or.inr ⟨fault, own, hf, ho, (Malformed.message_eq hliteral.symm).symm, hplace⟩

end Tokens

namespace Parse

/-! ### Forms at alike tokens -/

section Forms

variable {gate : Token} {n : Nat} {r r' : Reader} {ops : OperatorTable}

/-- Where the gate is the end of the input, two alike readers come to the end together. -/
theorem current_of_alike_to_end (hgate : gate.isEnd = true) (h : Reader.Alike gate [] r r' n) :
    ∃ t u, r.current = some t ∧ r'.current = some u ∧ u.isEnd = t.isEnd ∧
      u.isSymbol ";" = t.isSymbol ";" ∧ FormKind.ofToken u = FormKind.ofToken t ∧
      (n = 0 → t.isEnd = true) := by
  cases h with
  | @inside t u stop items others notes own hc hc' ht _ _ _ _ _ =>
    have hkind := Token.kind_eq_of_unplaced ht
    have hend : u.isEnd = t.isEnd := by rw [Token.isEnd, Token.isEnd, hkind]
    have hsymbol : u.isSymbol ";" = t.isSymbol ";" := by
      rw [Token.isSymbol, Token.isSymbol, hkind]
    have hform : FormKind.ofToken u = FormKind.ofToken t := by
      rw [FormKind.ofToken, FormKind.ofToken, hkind]
    exact ⟨t, u, hc, hc', hend, hsymbol, hform, fun hn => by cases hn⟩
  | @reached t hc hc' _ _ ht _ =>
    have hkinds : ∀ v : Token, v.isEnd = true → v.kind = .eof := by
      intro v hv
      unfold Token.isEnd at hv
      split at hv
      · next hkind => exact hkind
      · cases hv
    have hkind := hkinds t ht
    have hkind' := hkinds gate hgate
    refine ⟨t, gate, hc, hc', by rw [ht, hgate], ?_, ?_, fun _ => ht⟩
    · rw [Token.isSymbol, Token.isSymbol, hkind, hkind']
    · rw [FormKind.ofToken, FormKind.ofToken, hkind, hkind']

def sameForm? (_ : Nat) (f g : Option Form) : Prop := f.map Form.unplaced = g.map Form.unplaced

theorem form_agree (hgate : gate.isEnd = true) (hops : Closed ops) (depth : Nat)
    (h : Reader.Alike gate [] r r' n) :
    Agree gate [] sameForm? n (form? ops depth r) (form? ops depth r') := by
  have hcloses := Token.closes_of_isEnd hgate
  obtain ⟨t, u, ht, hu, hend, hsymbol, hkind, hlast⟩ := current_of_alike_to_end hgate h
  cases hover : t.isEnd with
  | true =>
    rw [form_end_eq ht hover, form_end_eq hu (hend.trans hover)]
    exact .ok rfl h (le_refl n)
  | false =>
    have hinside : n ≠ 0 := by
      intro hn
      rw [hlast hn] at hover
      cases hover
    cases hsep : t.isSymbol ";" with
    | true =>
      obtain ⟨n, rfl⟩ := Nat.exists_eq_succ_of_ne_zero hinside
      rw [form_separator_eq ht hsep, form_separator_eq hu (hsymbol.trans hsep)]
      refine ((fetch_agree hcloses h).mono (Nat.le_succ n)).bind fun _ _ m s s' _ hs _ => ?_
      exact .pure hs rfl
    | false =>
      rw [form_kind_eq ht hover hsep, form_kind_eq hu (hend.trans hover) (hsymbol.trans hsep),
        hkind]
      refine (read_agree hcloses hops depth _ h fun _ => hinside).map fun m f g hfg => ?_
      exact congrArg some hfg

theorem formsFrom_agree (hgate : gate.isEnd = true) (hops : Closed ops) (depth fuel : Nat)
    (h : Reader.Alike gate [] r r' n) :
    Agree gate [] (fun _ fs gs => fs.map Form.unplaced = gs.map Form.unplaced) n
      (formsFrom ops depth fuel r) (formsFrom ops depth fuel r') := by
  induction fuel generalizing n r r' with
  | zero => exact .pure h rfl
  | succ fuel ih =>
    obtain ⟨t, u, ht, hu, hend, _, _, _⟩ := current_of_alike_to_end hgate h
    rw [formsFrom, step_bind_ok (current_of_some ht), step_bind_ok (current_of_some hu), hend]
    split
    · exact .pure h rfl
    · refine (form_agree hgate hops depth h).bind fun found found' m s s' hfound hs _ => ?_
      refine (ih hs).bind fun rest rest' k s s' hrest hs _ => .pure hs ?_
      have hfirst : found.toList.map Form.unplaced = found'.toList.map Form.unplaced := by
        rw [← Option.toList_map, ← Option.toList_map]
        exact congrArg Option.toList hfound
      rw [List.map_append, List.map_append, hfirst, hrest]

/-- The first item of a source takes a reader to its first token, or it is a malformed literal on
both sides. -/
theorem first_agrees {items others : List Lexeme} (h : EndsOnce items)
    (hlast : (Reader.ofLexemes items).ending.isEnd = true)
    (hbare : others.map Lexeme.bare = items.map Lexeme.bare) :
    (∃ t u first first' gate n, fetch (.ofLexemes items) = .ok t first ∧
      fetch (.ofLexemes others) = .ok u first' ∧ gate.isEnd = true ∧
      first'.ahead.length = first.ahead.length ∧ Reader.Alike gate [] first first' n) ∨
    ∃ fault own first first', fetch (.ofLexemes items) = .error (.malformed fault) first ∧
      fetch (.ofLexemes others) = .error (.malformed own) first' ∧
      own.diagnostic.message = fault.diagnostic.message := by
  obtain ⟨front, notes, stop, rfl, hstop⟩ := h.exists_last
  rw [List.map_append] at hbare
  obtain ⟨front', ends, rfl, hfront, hends⟩ := List.map_eq_append_iff.1 hbare
  obtain ⟨⟨own, item⟩, rfl, hgate⟩ := List.map_eq_singleton_iff.1 hends
  have hend : item.isEnd = true := by
    have hunplaced := congrArg Item.isEnd hgate
    rw [Lexeme.bare, Item.isEnd_unplaced, Lexeme.bare, Item.isEnd_unplaced] at hunplaced
    exact hunplaced.trans hstop
  obtain ⟨_, gate, heq, hend⟩ := Lexeme.exists_token_of_isEnd ⟨own, item⟩ hend
  cases heq
  have hlength := congrArg List.length hfront
  simp only [List.length_map] at hlength
  cases front with
  | nil =>
    obtain rfl := List.map_eq_nil_iff.1 hfront
    exact Or.inl ⟨stop, gate, _, _, gate, 0, fetch_token rfl, fetch_token rfl, hend, rfl,
      .reached rfl rfl rfl rfl hstop hlast⟩
  | cons l front =>
    obtain ⟨l', front', rfl, hl, hrest⟩ := List.map_eq_cons_iff.1 hfront
    obtain ⟨first, item⟩ := l
    obtain ⟨first', item'⟩ := l'
    rcases Item.cases_of_unplaced hl with ⟨t, u, rfl, rfl, hsame⟩ | ⟨fault, fault', rfl, rfl, hlit⟩
    · refine Or.inl ⟨t, u, _, _, gate, front.length + 1, fetch_token rfl, fetch_token rfl, hend,
        ?_, .inside rfl rfl hsame rfl rfl hrest hstop hlast⟩
      simpa using hlength
    · exact Or.inr ⟨fault, fault', _, _, fetch_malformed rfl, fetch_malformed rfl,
        (Malformed.message_eq hlit.symm).symm⟩

/-- All forms of two rows of items that are the same up to places. -/
theorem all_agree (hops : Closed ops) (depth : Nat) {items others : List Lexeme}
    (h : EndsOnce items) (hlast : (Reader.ofLexemes items).ending.isEnd = true)
    (hbare : others.map Lexeme.bare = items.map Lexeme.bare) :
    (((all ops depth).result (.ofLexemes others)).map (List.map Form.unplaced)).mapError
        (fun failure => failure.diagnostic.message) =
      (((all ops depth).result (.ofLexemes items)).map (List.map Form.unplaced)).mapError
        fun failure => failure.diagnostic.message := by
  unfold Parse.result all
  rcases first_agrees h hlast hbare with ⟨t, u, first, first', gate, n, hfetch, hfetch', hgate,
    hlength, halike⟩ | ⟨fault, own, first, first', hfetch, hfetch', hmessage⟩
  · have hforms := formsFrom_agree hgate hops depth (first.ahead.length + 1) halike
    rw [step_bind_ok hfetch, step_bind_ok hfetch', step_bind_ok (rounds_eq first),
      step_bind_ok (rounds_eq first'), hlength]
    generalize formsFrom ops depth (first.ahead.length + 1) first = own at hforms ⊢
    generalize formsFrom ops depth (first.ahead.length + 1) first' = other at hforms ⊢
    cases hforms with
    | ok hsame _ _ => exact congrArg Except.ok hsame.symm
    | error hsame _ _ => exact congrArg Except.error hsame.symm
  · rw [step_bind_error hfetch, step_bind_error hfetch']
    exact congrArg Except.error hmessage

end Forms

end Parse

/-! ### Sources -/

/-- The translation of a source that makes every end of a line a line feed keeps its tokens, with
kinds, values and lexemes, or the message of its malformed literal; and it keeps the forms that are
read from it, up to places, or the message of the failure. Where every carriage return is followed
by a line feed, it keeps all lines and columns too. -/
theorem newlines_do_not_matter (file : String) (source : List Char) :
    outline file (unifyLines source) = outline file source ∧
    (∀ ops : OperatorTable, ops.Reachable → ∀ depth,
      formsOutline ops depth file (unifyLines source) = formsOutline ops depth file source) ∧
    (ReturnsPaired source →
      placedOutline file (unifyLines source) = placedOutline file source) := by
  have hitems := lexemes_unifyLines file source
  refine ⟨tokensOf_congr (hitems.imp fun l other h => ?_), fun ops hops depth => ?_,
    fun hpaired => tokensOf_congr (hitems.imp fun l other h => ?_)⟩
  · rcases h.cases with ⟨t, u, ht, hu, hshape, _⟩ | ⟨fault, own, hf, ho, hmessage, _⟩
    · exact Or.inl ⟨t, u, ht, hu, hshape⟩
    · exact Or.inr ⟨fault, own, hf, ho, hmessage⟩
  · have hbare : (lexemes file (unifyLines source)).map Lexeme.bare =
        (lexemes file source).map Lexeme.bare := by
      have hmaps := List.forall₂_map_left_iff.2 (List.forall₂_map_right_iff.2
        (hitems.imp fun l other h => h.bare.symm))
      exact (List.forall₂_eq_eq_eq ▸ hmaps : _ = _).symm
    obtain ⟨front, notes, stop, heq, hstop⟩ := (endsOnce_lexemes file source).exists_last
    have hlast : (Reader.ofLexemes (lexemes file source)).ending.isEnd = true := by
      simp only [Reader.ofLexemes, heq, List.getLast?_concat, hstop]
    exact Parse.all_agree (Parse.closed_of_reachable hops) depth (endsOnce_lexemes file source)
      hlast hbare
  · rcases h.cases with ⟨t, u, ht, hu, hshape, hplace⟩ | ⟨fault, own, hf, ho, hmessage, hplace⟩
    · exact Or.inl ⟨t, u, ht, hu, Prod.ext hshape (hplace hpaired)⟩
    · exact Or.inr ⟨fault, own, hf, ho, Prod.ext hmessage (hplace hpaired)⟩

/-- A comment that a carriage return and a line feed end, and a malformed literal behind it. -/
theorem newlines_do_not_matter_comment :
    ReturnsPaired "a#b\r\n+\r\n .".toList ∧
    OperatorTable.standard.Reachable ∧
    formsOutline .standard 3 "" "a#b\n+\n .".toList =
      formsOutline .standard 3 "" "a#b\r\n+\r\n .".toList ∧
    placedOutline "" "a#b\r\n+\r\n .".toList =
      .error ("invalid numeric literal '.'", some (3, 2)) ∧
    placedOutline "" "a#b\n+\n .".toList =
      .error ("invalid numeric literal '.'", some (3, 2)) := by
  have hpaired : ReturnsPaired "a#b\r\n+\r\n .".toList := by
    simp [returnsPaired_cons, returnsPaired_nil]
  have htranslated : unifyLines "a#b\r\n+\r\n .".toList = "a#b\n+\n .".toList := by decide
  have hread : placedOutline "" "a#b\r\n+\r\n .".toList =
      .error ("invalid numeric literal '.'", some (3, 2)) := rfl
  obtain ⟨_, hforms, hplaces⟩ := newlines_do_not_matter "" "a#b\r\n+\r\n .".toList
  rw [htranslated] at hforms hplaces
  exact ⟨hpaired, .standard, hforms _ .standard 3, hread, (hplaces hpaired).trans hread⟩

end ScalarLang
