import ScalarLang.Proofs.Parse.Grammar
import ScalarLang.Proofs.Token.Lexemes

/-!
# What is read is derivable

Whatever expression is read, the tokens that were passed are derivable and spell it.
-/
namespace ScalarLang

/-! ### Readers of whole sources -/

/-- The reader stands on the end of the source, or has it ahead as the last item. -/
def Reader.Ends (r : Reader) : Prop :=
  match r.current with
  | some t => if t.isEnd then r.ahead = [] else EndsOnce r.ahead
  | none => EndsOnce r.ahead

namespace Parse

variable {r middle after : Reader} {t next : Token} {ts : List Token}

theorem ends_of_passes (hr : r.Ends) (hp : r.Passes ts after) : after.Ends := by
  induction hp with
  | nil => exact hr
  | @cons r after t next notes rest ts hc ha _ ih =>
    refine ih ?_
    unfold Reader.Ends at hr ⊢
    simp only [hc, ha] at hr
    split at hr
    · cases hr
    · exact hr

theorem current_eq_ok (h : current r = .ok t after) : r.current = some t ∧ after = r := by
  obtain ⟨token, ahead, ending⟩ := r
  cases token with
  | none => cases h
  | some token =>
    cases h
    exact ⟨rfl, rfl⟩

theorem fetch_eq_ok (hr : r.Ends) (hc : r.current = some t) (ht : t.isEnd = false)
    (h : fetch r = .ok next after) : r.Passes [t] after ∧ after.current = some next := by
  have hends : EndsOnce r.ahead := by
    unfold Reader.Ends at hr
    simpa [hc, ht] using hr
  cases hahead : r.ahead with
  | nil =>
    rw [hahead] at hends
    exact hends.elim
  | cons lexeme rest =>
    obtain ⟨notes, item⟩ := lexeme
    cases item with
    | token u =>
      rw [fetch_token hahead] at h
      cases h
      exact ⟨.cons hc hahead (.nil _), rfl⟩
    | malformed fault =>
      rw [fetch_malformed hahead] at h
      cases h

theorem require_eq_ok {text : String} {expected : Expectation}
    (h : require text expected r = .ok () after) :
    after = r ∧ ∃ t, r.current = some t ∧ t.isSymbol text = true := by
  obtain ⟨t, middle, hcurrent, htest⟩ := step_bind_eq_ok.1 h
  obtain ⟨ht, rfl⟩ := current_eq_ok hcurrent
  by_cases hsymbol : t.isSymbol text = true
  · rw [if_pos hsymbol] at htest
    cases htest
    exact ⟨rfl, t, ht, hsymbol⟩
  · rw [if_neg hsymbol, fail_of_some expected ht] at htest
    cases htest

theorem isEnd_of_isSymbol {text : String} (h : t.isSymbol text = true) : t.isEnd = false := by
  rw [Token.isEnd, Token.kind_of_isSymbol h]

theorem pass_symbol {text : String} (hr : r.Ends) (hc : r.current = some t)
    (ht : t.isSymbol text = true) (h : fetch r = .ok next after) : r.Passes [t] after :=
  (fetch_eq_ok hr hc (isEnd_of_isSymbol ht) h).1

/-! ### Parts of expressions -/

/-- A reader passes tokens that are derivable and that spell, as far as they are kept, what is
given. -/
def Yields (ops : OperatorTable) (nt : Nonterminal) (r : Reader) (spelled : List TokenKind)
    (after : Reader) : Prop :=
  ∃ ts kept, Derives ops nt ts kept ∧ r.Passes ts after ∧ kept.map Token.kind = spelled

/-- A step yields what it returns. -/
def Sound (ops : OperatorTable) (nt : Nonterminal) (step : Parse Expr) : Prop :=
  ∀ r e after, r.Ends → step r = .ok e after → Yields ops nt r e.spelling after

/-- A step yields what it puts to the right of an operand. -/
def Extends (ops : OperatorTable) (step : Expr → Parse Expr) : Prop :=
  ∀ lhs r e after, r.Ends → step lhs r = .ok e after →
    ∃ spelled, Yields ops .tail r spelled after ∧ e.spelling = lhs.spelling ++ spelled

section Expressions

variable {ops : OperatorTable} {e : Expr} {spelled spelled' : List TokenKind}

theorem Yields.ends {nt : Nonterminal} (h : Yields ops nt r spelled after) (hr : r.Ends) :
    after.Ends := by
  obtain ⟨ts, kept, _, hp, _⟩ := h
  exact ends_of_passes hr hp

theorem Yields.noTail (ops : OperatorTable) (r : Reader) : Yields ops .tail r [] r :=
  ⟨[], [], .noTail, .nil r, rfl⟩

theorem Yields.tail_append (h : Yields ops .tail r spelled middle)
    (h' : Yields ops .tail middle spelled' after) :
    Yields ops .tail r (spelled ++ spelled') after := by
  obtain ⟨ts, kept, hts, hp, rfl⟩ := h
  obtain ⟨us, kept', hus, hp', rfl⟩ := h'
  exact ⟨ts ++ us, kept ++ kept', hts.tail_append hus, hp.append hp', List.map_append⟩

theorem Yields.tail {op : Token} {start : Reader} (hop : ops.Joins op) (hp : r.Passes [op] start)
    (h : Yields ops .primary start spelled middle)
    (h' : Yields ops .tail middle spelled' after) :
    Yields ops .tail r (.symbol op.word :: (spelled ++ spelled')) after := by
  obtain ⟨ts, kept, hts, hpts, rfl⟩ := h
  obtain ⟨us, kept', hus, hpus, rfl⟩ := h'
  refine ⟨op :: (ts ++ us), op :: (kept ++ kept'), .tail hop hts hus,
    hp.append (hpts.append hpus), ?_⟩
  obtain ⟨text, hkind, _⟩ := hop
  simp [hkind, Token.word_of_kind hkind]

theorem Yields.expression (h : Yields ops .primary r spelled middle)
    (h' : Yields ops .tail middle spelled' after) :
    Yields ops .expression r (spelled ++ spelled') after := by
  obtain ⟨ts, kept, hts, hpts, rfl⟩ := h
  obtain ⟨us, kept', hus, hpus, rfl⟩ := h'
  exact ⟨ts ++ us, kept ++ kept', .expression hts hus, hpts.append hpus, List.map_append⟩

theorem rightSide_sound {climb : Int → Expr → Parse Expr} {precedence : Int}
    (hclimb : Extends ops (climb (precedence + 1))) :
    Extends ops (rightSide ops climb precedence) := by
  intro operand r e after hr h
  obtain ⟨next, middle, hcurrent, htest⟩ := step_bind_eq_ok.1 h
  obtain ⟨_, rfl⟩ := current_eq_ok hcurrent
  by_cases hlt : precedence < ops.precedence next
  · rw [if_pos hlt] at htest
    exact hclimb operand _ e after hr htest
  · rw [if_neg hlt] at htest
    cases htest
    exact ⟨[], .noTail ops _, (List.append_nil _).symm⟩

theorem chain_sound {primary : Parse Expr} {climb : Int → Expr → Parse Expr} {least : Int}
    (hleast : 0 ≤ least) (hprimary : Sound ops .primary primary)
    (hclimb : ∀ bound, 0 ≤ bound → Extends ops (climb bound)) (fuel : Nat) :
    Extends ops (chain ops primary climb least fuel) := by
  -- Each round adds an operator, an operand, and what binds tighter.
  induction fuel with
  | zero =>
    intro lhs r e after _ h
    cases h
    exact ⟨[], .noTail ops _, (List.append_nil _).symm⟩
  | succ fuel ih =>
    intro lhs r e after hr h
    obtain ⟨op, middle, hcurrent, htest⟩ := step_bind_eq_ok.1 h
    obtain ⟨hc, rfl⟩ := current_eq_ok hcurrent
    by_cases hlt : ops.precedence op < least
    · simp only [if_pos hlt] at htest
      cases htest
      exact ⟨[], .noTail ops _, (List.append_nil _).symm⟩
    · simp only [if_neg hlt] at htest
      have hop : ops.Joins op := OperatorTable.joins_of_precedence (by omega)
      obtain ⟨text, hkind, _⟩ := id hop
      obtain ⟨next, first, hfetch, hround⟩ := step_bind_eq_ok.1 htest
      obtain ⟨operand, second, hoperand, hround⟩ := step_bind_eq_ok.1 hround
      obtain ⟨rhs, third, hrhs, hround⟩ := step_bind_eq_ok.1 hround
      have hp := (fetch_eq_ok hr hc (by rw [Token.isEnd, hkind]) hfetch).1
      have hfirst := ends_of_passes hr hp
      have hyields := hprimary first operand second hfirst hoperand
      obtain ⟨tight, htight, hrhsEq⟩ := rightSide_sound (hclimb _ (by omega)) operand second rhs third
        (hyields.ends hfirst) hrhs
      obtain ⟨loose, hloose, hEq⟩ := ih _ third e after (htight.ends (hyields.ends hfirst))
        hround
      refine ⟨_, (Yields.tail hop hp hyields htight).tail_append hloose, ?_⟩
      rw [hEq, Expr.spelling, hrhsEq]
      simp

theorem parenthesized_sound {inner : Parse Expr} {left : Token}
    (hinner : Sound ops .expression inner) (hr : r.Ends) (hc : r.current = some left)
    (hleft : left.isSymbol "(" = true) (h : parenthesized inner r = .ok e after) :
    Yields ops .primary r e.spelling after := by
  obtain ⟨_, first, hfetch, h⟩ := step_bind_eq_ok.1 h
  obtain ⟨e', second, he, h⟩ := step_bind_eq_ok.1 h
  obtain ⟨⟨⟩, third, hrequire, h⟩ := step_bind_eq_ok.1 h
  obtain ⟨_, fourth, hclose, h⟩ := step_bind_eq_ok.1 h
  cases h
  have hopen := pass_symbol hr hc hleft hfetch
  have hfirst := ends_of_passes hr hopen
  obtain ⟨ts, kept, hts, hp, hkept⟩ := hinner first e second hfirst he
  obtain ⟨rfl, right, hright, hsymbol⟩ := require_eq_ok hrequire
  have hend := pass_symbol (ends_of_passes hfirst hp) hright hsymbol hclose
  exact ⟨left :: (ts ++ [right]), kept, .parenthesized hleft hts hsymbol,
    hopen.append (hp.append hend), hkept⟩

theorem intercalate_cons_cons {α : Type} (sep x y : List α) (rest : List (List α)) :
    sep.intercalate (x :: y :: rest) = x ++ (sep ++ sep.intercalate (y :: rest)) := by
  simp [List.intercalate, List.intersperse]

theorem Yields.argument {comma : Token} {start : Reader} {e second : Expr} {rest : List Expr}
    (h : Yields ops .expression r e.spelling middle) (hp : middle.Passes [comma] start)
    (hcomma : comma.isSymbol "," = true)
    (h' : Yields ops .arguments start
      ([.symbol ","].intercalate ((second :: rest).map Expr.spelling)) after) :
    Yields ops .arguments r ([.symbol ","].intercalate ((e :: second :: rest).map Expr.spelling))
      after := by
  obtain ⟨ts, kept, hts, hpts, hkept⟩ := h
  obtain ⟨us, kept', hus, hpus, hkept'⟩ := h'
  refine ⟨ts ++ comma :: us, kept ++ comma :: kept', .argument hts hcomma hus,
    hpts.append (hp.append hpus), ?_⟩
  rw [List.map_append, List.map_cons, hkept, hkept', Token.kind_of_isSymbol hcomma]
  simp only [List.map_cons, intercalate_cons_cons, List.singleton_append]

theorem arguments_sound {inner : Parse Expr} {fuel : Nat} {done args : List Expr}
    (hinner : Sound ops .expression inner) (hr : r.Ends) (hfuel : r.ahead.length < fuel)
    (h : arguments inner fuel done r = .ok args after) :
    ∃ e rest, args = done ++ e :: rest ∧
      Yields ops .arguments r ([.symbol ","].intercalate ((e :: rest).map Expr.spelling)) after ∧
      ∃ right, after.current = some right ∧ right.isSymbol ")" = true := by
  -- Each round takes the comma behind an argument, so the rounds do not run out.
  induction fuel generalizing r done with
  | zero => exact absurd hfuel (Nat.not_lt_zero _)
  | succ fuel ih =>
    obtain ⟨e, first, he, h⟩ := step_bind_eq_ok.1 h
    obtain ⟨t, second, hcurrent, htest⟩ := step_bind_eq_ok.1 h
    obtain ⟨ht, rfl⟩ := current_eq_ok hcurrent
    have hyields := hinner r e second hr he
    by_cases hclose : t.isSymbol ")" = true
    · rw [if_pos hclose] at htest
      cases htest
      obtain ⟨ts, kept, hts, hp, hkept⟩ := hyields
      refine ⟨e, [], rfl, ⟨ts, kept, .lastArgument hts, hp, ?_⟩, t, ht, hclose⟩
      rw [hkept]
      simp [List.intercalate]
    · rw [if_neg hclose] at htest
      obtain ⟨⟨⟩, third, hrequire, hmore⟩ := step_bind_eq_ok.1 htest
      obtain ⟨rfl, comma, hc, hcomma⟩ := require_eq_ok hrequire
      obtain ⟨_, fourth, hfetch, hmore⟩ := step_bind_eq_ok.1 hmore
      have hthird := hyields.ends hr
      have hpass := pass_symbol hthird hc hcomma hfetch
      have hlength : fourth.ahead.length < fuel := by
        obtain ⟨ts, _, _, hp, _⟩ := hyields
        have hts := hp.length_ahead
        have hone := hpass.length_ahead
        rw [List.length_singleton] at hone
        omega
      obtain ⟨e', rest, rfl, hrest, hend⟩ := ih (ends_of_passes hthird hpass) hlength hmore
      refine ⟨e, e' :: rest, ?_, Yields.argument hyields hpass hcomma hrest, hend⟩
      rw [List.append_assoc, List.singleton_append]

theorem argumentList_sound {inner : Parse Expr} {left : Token} {args : List Expr}
    (hinner : Sound ops .expression inner) (hr : r.Ends) (hc : r.current = some left)
    (hleft : left.isSymbol "(" = true) (h : argumentList inner r = .ok args after) :
    ∃ start, r.Passes [left] start ∧
      ((args = [] ∧ after = start) ∨
        Yields ops .arguments start ([.symbol ","].intercalate (args.map Expr.spelling)) after) ∧
      ∃ right, after.current = some right ∧ right.isSymbol ")" = true := by
  obtain ⟨next, start, hfetch, h⟩ := step_bind_eq_ok.1 h
  obtain ⟨hopen, hnext⟩ := fetch_eq_ok hr hc (isEnd_of_isSymbol hleft) hfetch
  by_cases hclose : next.isSymbol ")" = true
  · rw [if_pos hclose] at h
    cases h
    exact ⟨after, hopen, Or.inl ⟨rfl, rfl⟩, next, hnext, hclose⟩
  · rw [if_neg hclose] at h
    obtain ⟨_, _, hrounds, h⟩ := step_bind_eq_ok.1 h
    cases hrounds
    obtain ⟨e, rest, rfl, hyields, hend⟩ :=
      arguments_sound hinner (ends_of_passes hr hopen) (Nat.lt_succ_self _) h
    exact ⟨start, hopen, Or.inr hyields, hend⟩

theorem application_sound {inner : Parse Expr} {name : String} {args : Option (List Expr)}
    (hinner : Sound ops .expression inner) (hr : r.Ends) (hc : r.current = some t)
    (ht : t.kind = .identifier name) (h : application inner r = .ok args after)
    (location : Option Location) :
    Yields ops .primary r (Expr.reference name location args).spelling after := by
  obtain ⟨left, first, hfetch, h⟩ := step_bind_eq_ok.1 h
  obtain ⟨hname, hleftc⟩ := fetch_eq_ok hr hc (by rw [Token.isEnd, ht]) hfetch
  by_cases hleft : left.isSymbol "(" = true
  · rw [if_pos hleft] at h
    obtain ⟨args, second, hlist, h⟩ := step_bind_eq_ok.1 h
    obtain ⟨_, third, hclose, h⟩ := step_bind_eq_ok.1 h
    cases h
    have hfirst := ends_of_passes hr hname
    obtain ⟨start, hopen, hargs, right, hrightc, hright⟩ :=
      argumentList_sound hinner hfirst hleftc hleft hlist
    have hstart := ends_of_passes hfirst hopen
    rcases hargs with ⟨rfl, rfl⟩ | hargs
    · have hend := pass_symbol hstart hrightc hright hclose
      refine ⟨[t, left, right], [t, left, right], .emptyCall ht hleft hright,
        hname.append (hopen.append hend), ?_⟩
      simp [Expr.reference, Expr.spelling, ht, Token.kind_of_isSymbol hleft,
        Token.kind_of_isSymbol hright, List.intercalate]
    · have hend := pass_symbol (hargs.ends hstart) hrightc hright hclose
      obtain ⟨ts, kept, hts, hp, hkept⟩ := hargs
      refine ⟨t :: left :: (ts ++ [right]), t :: left :: (kept ++ [right]),
        .call ht hleft hts hright, hname.append (hopen.append (hp.append hend)), ?_⟩
      simp [Expr.reference, Expr.spelling, ht, Token.kind_of_isSymbol hleft,
        Token.kind_of_isSymbol hright, hkept]
  · rw [if_neg hleft] at h
    cases h
    exact ⟨[t], [t], .name ht, hname, by simp [Expr.reference, Expr.spelling, ht]⟩

theorem number_sound {value : Float} (hr : r.Ends) (hc : r.current = some t)
    (ht : t.kind = .number value) (h : number r = .ok e after) :
    Yields ops .primary r e.spelling after := by
  obtain ⟨_, _, hget, h⟩ := step_bind_eq_ok.1 h
  cases hget
  obtain ⟨t', first, hknown, h⟩ := step_bind_eq_ok.1 h
  rw [hc] at hknown
  cases hknown
  obtain ⟨_, second, hfetch, h⟩ := step_bind_eq_ok.1 h
  simp only [ht, TokenKind.meaning] at h
  cases h
  have hp := (fetch_eq_ok hr hc (by rw [Token.isEnd, ht]) hfetch).1
  exact ⟨[t], [t], .number ht, hp, by simp [Expr.spelling, ht]⟩

theorem primary_sound {depth : Nat} (hinner : Sound ops .expression (expression ops depth)) :
    Sound ops .primary (primary ops (depth + 1)) := by
  intro r e after hr h
  obtain ⟨t, middle, hcurrent, htest⟩ := step_bind_eq_ok.1 h
  obtain ⟨hc, rfl⟩ := current_eq_ok hcurrent
  cases ht : t.kind with
  | identifier name =>
    simp only [ht] at htest
    obtain ⟨args, second, happlication, hpure⟩ := step_bind_eq_ok.1 htest
    cases hpure
    exact application_sound hinner hr hc ht happlication t.location
  | number value =>
    simp only [ht] at htest
    exact number_sound hr hc ht htest
  | _ =>
    simp only [ht] at htest
    by_cases hleft : t.isSymbol "(" = true
    · rw [if_pos hleft] at htest
      exact parenthesized_sound hinner hr hc hleft htest
    · rw [if_neg hleft, fail_of_some _ hc] at htest
      cases htest

theorem fail_ne_ok {α : Type} {expected : Expectation} {a : α} :
    (fail expected : Parse α) r ≠ .ok a after := by
  intro h
  obtain ⟨_, _, _, h⟩ := step_bind_eq_ok.1 h
  cases h

theorem productions_sound (ops : OperatorTable) (depth : Nat) :
    Sound ops .expression (expression ops depth) ∧
      (∀ least, 0 ≤ least → Extends ops (climb ops depth least)) ∧
      Sound ops .primary (primary ops depth) := by
  -- The productions call each other with one level less of the budget.
  induction depth with
  | zero =>
    refine ⟨fun r e after _ h => ?_, fun least _ lhs r e after _ h => ?_, fun r e after _ h => ?_⟩
    · exact absurd h fail_ne_ok
    · exact absurd h fail_ne_ok
    · exact absurd h fail_ne_ok
  | succ depth ih =>
    obtain ⟨hexpression, hclimb, hprimary⟩ := ih
    refine ⟨fun r e after hr h => ?_, fun least hleast lhs r e after hr h => ?_,
      primary_sound hexpression⟩
    · obtain ⟨lhs, middle, hlhs, h⟩ := step_bind_eq_ok.1 h
      have hyields := hprimary r lhs middle hr hlhs
      obtain ⟨spelled, htail, heq⟩ := hclimb 0 (le_refl 0) lhs middle e after (hyields.ends hr) h
      rw [heq]
      exact hyields.expression htail
    · obtain ⟨_, _, hrounds, h⟩ := step_bind_eq_ok.1 h
      cases hrounds
      exact chain_sound hleast hprimary hclimb _ lhs r e after hr h

end Expressions

end Parse
end ScalarLang
