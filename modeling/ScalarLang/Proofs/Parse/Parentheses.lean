import ScalarLang.Proofs.Parse.Soundness

/-!
# Open parentheses

How many parentheses are open in a row of tokens, and that what is derivable closes those it opens.
-/
namespace ScalarLang.Parse

variable {ops : OperatorTable}

/-- How many more parentheses are open behind a token. -/
def openedBy (t : Token) : Int :=
  if t.isSymbol "(" then 1 else if t.isSymbol ")" then -1 else 0

/-- How many more parentheses are open behind tokens. -/
def opened (ts : List Token) : Int := (ts.map openedBy).sum

theorem opened_nil : opened [] = 0 := rfl

theorem opened_cons (t : Token) (ts : List Token) : opened (t :: ts) = openedBy t + opened ts :=
  rfl

theorem opened_append (ts us : List Token) : opened (ts ++ us) = opened ts + opened us := by
  simp [opened]

theorem openedBy_left {t : Token} (h : t.isSymbol "(" = true) : openedBy t = 1 := if_pos h

theorem openedBy_right {t : Token} (h : t.isSymbol ")" = true) : openedBy t = -1 := by
  rw [openedBy, Token.isSymbol_of_ne h (by decide), h]
  rfl

theorem openedBy_of_ne {t : Token} (hleft : t.isSymbol "(" = false)
    (hright : t.isSymbol ")" = false) : openedBy t = 0 := by
  rw [openedBy, hleft, hright]
  rfl

theorem openedBy_of_kind {t : Token} (h : ∀ text, t.kind ≠ .symbol text) : openedBy t = 0 := by
  have hnone : ∀ text, t.isSymbol text = false := by
    intro text
    cases hsymbol : t.isSymbol text with
    | false => rfl
    | true => exact absurd (Token.kind_of_isSymbol hsymbol) (h text)
  exact openedBy_of_ne (hnone _) (hnone _)

theorem openedBy_of_joins (hops : ops.Reachable) {op : Token} (h : ops.Joins op) :
    openedBy op = 0 := by
  have hnone : ∀ text ∈ OperatorTable.punctuation, op.isSymbol text = false := by
    intro text htext
    cases hsymbol : op.isSymbol text with
    | false => rfl
    | true => exact absurd h (hops.not_joins_of_isSymbol htext hsymbol)
  exact openedBy_of_ne (hnone _ (by decide)) (hnone _ (by decide))

/-- How many parentheses are open at most at once in a row of tokens. -/
def deepest : List Token → Nat
  | [] => 0
  | t :: ts => (openedBy t + deepest ts).toNat

theorem opened_le_deepest (ts : List Token) : opened ts ≤ deepest ts := by
  induction ts with
  | nil => exact le_refl 0
  | cons t ts ih =>
    rw [opened_cons, deepest]
    omega

theorem deepest_le_append (ts us : List Token) : deepest ts ≤ deepest (ts ++ us) := by
  induction ts with
  | nil => exact Nat.zero_le _
  | cons t ts ih =>
    rw [List.cons_append, deepest, deepest]
    omega

theorem deepest_eq_zero {ts : List Token} (h : ∀ t ∈ ts, openedBy t = 0) : deepest ts = 0 := by
  induction ts with
  | nil => rfl
  | cons t ts ih =>
    obtain ⟨ht, hts⟩ := List.forall_mem_cons.1 h
    rw [deepest, ht, ih hts]
    rfl

/-- What is derivable closes what it opens. -/
theorem opened_of_derives (hops : ops.Reachable) {nt : Nonterminal} {ts kept : List Token}
    (h : Derives ops nt ts kept) : opened ts = 0 := by
  induction h with
  | number h => simp [opened_cons, opened_nil, openedBy_of_kind, h]
  | name h => simp [opened_cons, opened_nil, openedBy_of_kind, h]
  | emptyCall h hleft hright =>
    simp [opened_cons, opened_nil, openedBy_of_kind, h, openedBy_left hleft, openedBy_right hright]
  | call h hleft _ hright ih =>
    simp [opened_cons, opened_nil, opened_append, openedBy_of_kind, h, openedBy_left hleft,
      openedBy_right hright, ih]
  | parenthesized hleft _ hright ih =>
    simp [opened_cons, opened_nil, opened_append, openedBy_left hleft, openedBy_right hright, ih]
  | noTail => rfl
  | tail hop _ _ ih ihtail =>
    simp [opened_cons, opened_append, openedBy_of_joins hops hop, ih, ihtail]
  | expression _ _ ih ihtail => simp [opened_append, ih, ihtail]
  | lastArgument _ ih => exact ih
  | argument _ hcomma _ ih ihrest =>
    have hno := openedBy_of_ne (Token.isSymbol_of_ne hcomma (by decide))
      (Token.isSymbol_of_ne hcomma (by decide))
    simp [opened_cons, opened_append, hno, ih, ihrest]

/-- The reader passes tokens behind which `n` more parentheses are open. -/
def Deepens (r : Reader) (n : Int) (after : Reader) : Prop :=
  ∃ ts, r.Passes ts after ∧ opened ts = n

namespace Deepens

variable {r middle after : Reader} {n m : Int}

theorem refl (r : Reader) : Deepens r 0 r := ⟨[], .nil r, rfl⟩

theorem trans (h : Deepens r n middle) (h' : Deepens middle m after) :
    Deepens r (n + m) after := by
  obtain ⟨ts, hts, rfl⟩ := h
  obtain ⟨us, hus, rfl⟩ := h'
  exact ⟨ts ++ us, hts.append hus, opened_append ts us⟩

theorem of_yields (hops : ops.Reachable) {nt : Nonterminal} {spelled : List TokenKind}
    (h : Yields ops nt r spelled after) : Deepens r 0 after := by
  obtain ⟨ts, kept, hts, hp, _⟩ := h
  exact ⟨ts, hp, opened_of_derives hops hts⟩

theorem single {t next : Token} (hr : r.Ends) (hc : r.current = some t) (ht : t.isEnd = false)
    (h : fetch r = .ok next after) : Deepens r (openedBy t) after :=
  ⟨[t], (fetch_eq_ok hr hc ht h).1, by simp [opened_cons, opened_nil]⟩

theorem ends (h : Deepens r n after) (hr : r.Ends) : after.Ends := by
  obtain ⟨ts, hp, _⟩ := h
  exact ends_of_passes hr hp

end Deepens

end ScalarLang.Parse
