import ScalarLang.Proofs.Parse.Reading

/-!
# The grammar

The productions as they are documented, over rows of tokens. Each derivation also says which tokens
are kept when separators and grouping parentheses are dropped.

Forms need no separator between them, so a row can be derived in several ways. The derivation in
which every expression is as long as it can be is always among them.
-/
namespace ScalarLang

/-- The parts of an expression: `tail` is what follows its first operand, and `arguments` are those
of a call, at least one. -/
inductive Nonterminal where
  | primary
  | tail
  | expression
  | arguments

/-- A row of tokens is derivable, and these of them are kept. -/
inductive Derives (ops : OperatorTable) : Nonterminal → List Token → List Token → Prop
  | number {t : Token} {value : Float} (h : t.kind = .number value) :
      Derives ops .primary [t] [t]
  | name {t : Token} {name : String} (h : t.kind = .identifier name) :
      Derives ops .primary [t] [t]
  | emptyCall {t left right : Token} {name : String} (h : t.kind = .identifier name)
      (hleft : left.isSymbol "(" = true) (hright : right.isSymbol ")" = true) :
      Derives ops .primary [t, left, right] [t, left, right]
  | call {t left right : Token} {name : String} {ts kept : List Token}
      (h : t.kind = .identifier name) (hleft : left.isSymbol "(" = true)
      (hargs : Derives ops .arguments ts kept) (hright : right.isSymbol ")" = true) :
      Derives ops .primary (t :: left :: (ts ++ [right])) (t :: left :: (kept ++ [right]))
  | parenthesized {left right : Token} {ts kept : List Token} (hleft : left.isSymbol "(" = true)
      (h : Derives ops .expression ts kept) (hright : right.isSymbol ")" = true) :
      Derives ops .primary (left :: (ts ++ [right])) kept
  | noTail : Derives ops .tail [] []
  | tail {op : Token} {ts us kept kept' : List Token} (hop : ops.Joins op)
      (h : Derives ops .primary ts kept) (htail : Derives ops .tail us kept') :
      Derives ops .tail (op :: (ts ++ us)) (op :: (kept ++ kept'))
  | expression {ts us kept kept' : List Token} (h : Derives ops .primary ts kept)
      (htail : Derives ops .tail us kept') : Derives ops .expression (ts ++ us) (kept ++ kept')
  | lastArgument {ts kept : List Token} (h : Derives ops .expression ts kept) :
      Derives ops .arguments ts kept
  | argument {comma : Token} {ts us kept kept' : List Token}
      (h : Derives ops .expression ts kept) (hcomma : comma.isSymbol "," = true)
      (hrest : Derives ops .arguments us kept') :
      Derives ops .arguments (ts ++ comma :: us) (kept ++ comma :: kept')

/-- The tokens of a prototype, whose parameters are pairwise distinct. -/
inductive Heading : List Token → Prop
  | mk {t left right : Token} {name : String} {names : List String} {ts : List Token}
      (h : t.kind = .identifier name) (hleft : left.isSymbol "(" = true)
      (hnames : ts.map Token.kind = names.map TokenKind.identifier) (hdistinct : names.Nodup)
      (hright : right.isSymbol ")" = true) : Heading (t :: left :: (ts ++ [right]))

/-- The tokens of a form or of a separator. -/
inductive TopLevel (ops : OperatorTable) : List Token → List Token → Prop
  | definition {t : Token} {heading ts kept : List Token} (ht : t.kind = .define)
      (hheading : Heading heading) (h : Derives ops .expression ts kept) :
      TopLevel ops (t :: (heading ++ ts)) (t :: (heading ++ kept))
  | external {t : Token} {heading : List Token} (ht : t.kind = .external)
      (hheading : Heading heading) : TopLevel ops (t :: heading) (t :: heading)
  | expression {ts kept : List Token} (h : Derives ops .expression ts kept) :
      TopLevel ops ts kept
  | separator {t : Token} (ht : t.isSymbol ";" = true) : TopLevel ops [t] []

/-- The tokens of a source. -/
inductive Program (ops : OperatorTable) : List Token → List Token → Prop
  | nil : Program ops [] []
  | cons {ts us kept kept' : List Token} (h : TopLevel ops ts kept)
      (hrest : Program ops us kept') : Program ops (ts ++ us) (kept ++ kept')

/-! ### What a tree spells -/

namespace Expr

/-- The kinds of the tokens of a tree, from left to right. -/
def spelling : Expr → List TokenKind
  | number value _ => [.number value]
  | var name _ => [.identifier name]
  | binary op lhs rhs _ => lhs.spelling ++ .symbol op :: rhs.spelling
  | call callee args _ =>
    .identifier callee :: .symbol "(" ::
      ([.symbol ","].intercalate (args.map spelling) ++ [.symbol ")"])

end Expr

def Prototype.spelling (p : Prototype) : List TokenKind :=
  .identifier p.name :: .symbol "(" :: (p.params.map .identifier ++ [.symbol ")"])

def Form.spelling : Form → List TokenKind
  | .function f =>
    if f.prototype.isAnonymous then f.body.spelling
    else .define :: (f.prototype.spelling ++ f.body.spelling)
  | .external p => .external :: p.spelling

/-! ### Trees of derivable rows -/

/-- What there is to read in a row that is derived from a nonterminal. -/
def Nonterminal.Readable (ops : OperatorTable) (ts : List Token) : Nonterminal → Prop
  | .primary => ∃ e, Reading ops (.operand e) ts
  | .tail => ∃ links : List Link, (∀ link ∈ links, ops.Joins link.op) ∧
      (∀ link ∈ links, Reading ops (.operand link.operand) link.tokens) ∧
      links.flatMap Link.written = ts
  | .expression => ∃ e, Reading ops (.expression e) ts
  | .arguments => ∃ e es, Reading ops (.arguments (e :: es)) ts

theorem Derives.readable {ops : OperatorTable} {nt : Nonterminal} {ts kept : List Token}
    (h : Derives ops nt ts kept) : nt.Readable ops ts := by
  induction h with
  | number h => exact ⟨_, .number h⟩
  | name h => exact ⟨_, .name h⟩
  | emptyCall h hleft hright => exact ⟨_, .call h hleft .noArguments hright⟩
  | call h hleft _ hright ih =>
    obtain ⟨e, es, hargs⟩ := ih
    exact ⟨_, .call h hleft hargs hright⟩
  | parenthesized hleft _ hright ih =>
    obtain ⟨e, he⟩ := ih
    exact ⟨e, .parenthesized hleft he hright⟩
  | noTail => exact ⟨[], by simp, by simp, rfl⟩
  | @tail op ts us _ _ hop _ _ ih ihtail =>
    obtain ⟨e, he⟩ := ih
    obtain ⟨links, hjoins, hlinks, rfl⟩ := ihtail
    exact ⟨⟨op, e, ts⟩ :: links, List.forall_mem_cons.2 ⟨hop, hjoins⟩,
      List.forall_mem_cons.2 ⟨he, hlinks⟩, rfl⟩
  | expression _ _ ih ihtail =>
    obtain ⟨first, hfirst⟩ := ih
    obtain ⟨links, hjoins, hlinks, rfl⟩ := ihtail
    exact ⟨_, .chain hfirst hjoins hlinks⟩
  | lastArgument _ ih =>
    obtain ⟨e, he⟩ := ih
    exact ⟨e, [], .lastArgument he⟩
  | argument _ hcomma _ ih ihrest =>
    obtain ⟨e, he⟩ := ih
    obtain ⟨second, rest, hrest⟩ := ihrest
    exact ⟨e, second :: rest, .argument he hcomma hrest⟩

/-! ### Longest expressions -/

section Longest

variable {ops : OperatorTable} {ts us vs kept kept' : List Token} {t left right : Token}

theorem Derives.starts (h : Derives ops .expression ts kept) : ∃ t rest, ts = t :: rest ∧ t.Opens := by
  obtain ⟨e, he⟩ := h.readable
  exact he.starts (by simp)

theorem endsInName_append_iff (hne : us ≠ []) : EndsInName (ts ++ us) ↔ EndsInName us := by
  obtain ⟨t, ht⟩ := Option.ne_none_iff_exists'.1 (mt List.getLast?_eq_none_iff.1 hne)
  unfold EndsInName
  rw [List.getLast?_append, ht]
  rfl

theorem endsInName_singleton_iff : EndsInName [t] ↔ ∃ name, t.kind = .identifier name := by
  simp [EndsInName]

theorem not_endsInName_of_isSymbol (ts : List Token) {text : String}
    (h : right.isSymbol text = true) : ¬ EndsInName (ts ++ [right]) := by
  rw [endsInName_append_iff (by simp), endsInName_singleton_iff]
  rintro ⟨name, hname⟩
  rw [Token.kind_of_isSymbol h] at hname
  cases hname

theorem Derives.eq_singleton_of_endsInName (h : Derives ops .primary ts kept)
    (hends : EndsInName ts) : ∃ t name, ts = [t] ∧ t.kind = .identifier name := by
  cases h with
  | number h =>
    obtain ⟨name, hname⟩ := endsInName_singleton_iff.1 hends
    rw [h] at hname
    cases hname
  | name h => exact ⟨_, _, rfl, h⟩
  | emptyCall _ _ hright => exact absurd hends (not_endsInName_of_isSymbol [_, _] hright)
  | call _ _ _ hright => exact absurd hends (not_endsInName_of_isSymbol (_ :: _ :: _) hright)
  | parenthesized _ _ hright => exact absurd hends (not_endsInName_of_isSymbol (_ :: _) hright)

theorem Derives.tail_append (h : Derives ops .tail us kept) (hvs : Derives ops .tail vs kept') :
    Derives ops .tail (us ++ vs) (kept ++ kept') := by
  generalize hnt : Nonterminal.tail = nt at h
  induction h with
  | noTail => exact hvs
  | tail hop hprimary _ _ ih =>
    have htail := Derives.tail hop hprimary (ih rfl)
    simpa using htail
  | _ => cases hnt

theorem Derives.expression_append (h : Derives ops .expression ts kept)
    (hus : Derives ops .tail us kept') : Derives ops .expression (ts ++ us) (kept ++ kept') := by
  cases h with
  | expression hprimary htail =>
    have hmore := Derives.expression hprimary (htail.tail_append hus)
    simpa using hmore

theorem Derives.call_of_name (h : Derives ops .primary ts kept) (hends : EndsInName ts)
    (hleft : left.isSymbol "(" = true) (hargs : Derives ops .arguments vs kept')
    (hright : right.isSymbol ")" = true) :
    ∃ k, Derives ops .primary (ts ++ left :: (vs ++ [right])) k := by
  obtain ⟨t, name, rfl, ht⟩ := h.eq_singleton_of_endsInName hends
  exact ⟨_, .call ht hleft hargs hright⟩

theorem Derives.tail_call_of_name (h : Derives ops .tail us kept) (hends : EndsInName us)
    (hleft : left.isSymbol "(" = true) (hargs : Derives ops .arguments vs kept')
    (hright : right.isSymbol ")" = true) :
    ∃ k, Derives ops .tail (us ++ left :: (vs ++ [right])) k := by
  generalize hnt : Nonterminal.tail = nt at h
  induction h with
  | noTail =>
    obtain ⟨t, ht, _⟩ := hends
    cases ht
  | @tail op ts us _ _ hop hprimary htail _ ih =>
    by_cases hne : us = []
    · subst hne
      rw [List.append_nil, ← List.singleton_append,
        endsInName_append_iff (by rintro rfl; cases hprimary)] at hends
      obtain ⟨k, hk⟩ := hprimary.call_of_name hends hleft hargs hright
      have hmore := Derives.tail hop hk htail
      simp only [List.append_nil, List.cons_append] at hmore ⊢
      exact ⟨_, hmore⟩
    · rw [← List.cons_append, endsInName_append_iff hne] at hends
      obtain ⟨k, hk⟩ := ih hends rfl
      have hmore := Derives.tail hop hprimary hk
      rw [List.cons_append, List.append_assoc]
      exact ⟨_, hmore⟩
  | _ => cases hnt

theorem Derives.expression_call_of_name (h : Derives ops .expression ts kept)
    (hends : EndsInName ts) (hleft : left.isSymbol "(" = true)
    (hargs : Derives ops .arguments vs kept') (hright : right.isSymbol ")" = true) :
    ∃ k, Derives ops .expression (ts ++ left :: (vs ++ [right])) k := by
  cases h with
  | @expression ts us _ _ hprimary htail =>
    by_cases hne : us = []
    · subst hne
      rw [List.append_nil] at hends
      obtain ⟨k, hk⟩ := hprimary.call_of_name hends hleft hargs hright
      have hmore := Derives.expression hk htail
      rw [List.append_nil] at hmore ⊢
      exact ⟨_, hmore⟩
    · rw [endsInName_append_iff hne] at hends
      obtain ⟨k, hk⟩ := htail.tail_call_of_name hends hleft hargs hright
      have hmore := Derives.expression hprimary hk
      rw [List.append_assoc]
      exact ⟨_, hmore⟩

/-- An expression that starts with a parenthesis starts with an expression in parentheses. -/
theorem Derives.parenthesis_split (h : Derives ops .expression (left :: us) kept)
    (hleft : left.isSymbol "(" = true) :
    ∃ vs right rest k k', us = vs ++ right :: rest ∧ Derives ops .expression vs k ∧
      right.isSymbol ")" = true ∧ Derives ops .tail rest k' := by
  have hkind := Token.kind_of_isSymbol hleft
  generalize hrow : left :: us = row at h
  cases h with
  | expression hprimary htail =>
    cases hprimary with
    | number h | name h | emptyCall h _ _ | call h _ _ _ =>
      cases hrow
      rw [h] at hkind
      cases hkind
    | @parenthesized _ right vs _ _ h hright =>
      cases hrow
      exact ⟨vs, right, _, _, _, List.append_assoc vs [right] _, h, hright, htail⟩

/-- An expression that ends in a name and one that starts with a parenthesis are together one
expression. -/
theorem Derives.merge (h : Derives ops .expression ts kept) (hends : EndsInName ts)
    (hleft : left.isSymbol "(" = true) (hus : Derives ops .expression (left :: us) kept') :
    ∃ k, Derives ops .expression (ts ++ left :: us) k := by
  obtain ⟨vs, right, rest, _, _, rfl, hvs, hright, hrest⟩ := hus.parenthesis_split hleft
  obtain ⟨k, hk⟩ := h.expression_call_of_name hends hleft (.lastArgument hvs) hright
  have hmore := hk.expression_append hrest
  simp only [List.append_assoc, List.cons_append] at hmore
  exact ⟨_, hmore⟩

theorem not_joins_of_kind (h : ∀ text, t.kind ≠ .symbol text) : ¬ ops.Joins t := by
  rintro ⟨text, htext, _⟩
  exact h text htext

theorem TopLevel.starts (hops : ops.Reachable) (h : TopLevel ops ts kept) :
    ∃ t rest, ts = t :: rest ∧ ¬ ops.Joins t ∧ t.isEnd = false := by
  cases h with
  | definition ht _ _ =>
    exact ⟨_, _, rfl, not_joins_of_kind (by simp [ht]), by simp [Token.isEnd, ht]⟩
  | external ht _ =>
    exact ⟨_, _, rfl, not_joins_of_kind (by simp [ht]), by simp [Token.isEnd, ht]⟩
  | expression h =>
    obtain ⟨t, rest, rfl, ht⟩ := h.starts
    refine ⟨t, rest, rfl, ?_, ht.isEnd_eq_false⟩
    rcases ht with ⟨name, ht⟩ | ⟨value, ht⟩ | ht
    · exact not_joins_of_kind (by simp [ht])
    · exact not_joins_of_kind (by simp [ht])
    · exact hops.not_joins_of_isSymbol (by decide) ht
  | separator ht =>
    exact ⟨_, _, rfl, hops.not_joins_of_isSymbol (by decide) ht,
      by simp [Token.isEnd, Token.kind_of_isSymbol ht]⟩

theorem TopLevel.expression_of_left (h : TopLevel ops (left :: us) kept)
    (hleft : left.isSymbol "(" = true) : Derives ops .expression (left :: us) kept := by
  have hkind := Token.kind_of_isSymbol hleft
  cases h with
  | definition ht _ _ =>
    rw [ht] at hkind
    cases hkind
  | external ht _ =>
    rw [ht] at hkind
    cases hkind
  | expression h => exact h
  | separator ht =>
    rw [Token.isSymbol_of_ne ht (by decide)] at hleft
    cases hleft

theorem Program.starts (hops : ops.Reachable) (h : Program ops ts kept) :
    ∀ t ∈ ts.head?, ¬ ops.Joins t := by
  cases h with
  | nil => simp
  | cons h _ =>
    obtain ⟨t, rest, rfl, ht, _⟩ := h.starts hops
    intro t' ht'
    cases ht'
    exact ht

/-- An expression takes up what follows it as long as that makes a call of its last name. -/
theorem Program.absorb (hops : ops.Reachable) (hus : Program ops us kept')
    (h : Derives ops .expression ts kept) :
    ∃ us₁ us₂ k₁ k₂, us = us₁ ++ us₂ ∧ Derives ops .expression (ts ++ us₁) k₁ ∧
      Program ops us₂ k₂ ∧
      (EndsInName (ts ++ us₁) → ∀ t ∈ us₂.head?, t.isSymbol "(" = false) := by
  induction hus generalizing ts kept with
  | nil => exact ⟨[], [], kept, [], rfl, by simpa using h, .nil, by simp⟩
  | @cons vs us _ _ hvs hrest ih =>
    obtain ⟨left, rest, rfl, _, _⟩ := hvs.starts hops
    by_cases hcall : EndsInName ts ∧ left.isSymbol "(" = true
    · obtain ⟨k, hk⟩ := h.merge hcall.1 hcall.2 (hvs.expression_of_left hcall.2)
      obtain ⟨us₁, us₂, k₁, k₂, rfl, hlong, hprogram, hapart⟩ := ih hk
      rw [List.append_assoc] at hlong hapart
      exact ⟨left :: rest ++ us₁, us₂, k₁, k₂, by simp, hlong, hprogram, hapart⟩
    · refine ⟨[], left :: rest ++ us, kept, _, rfl, by simpa using h, .cons hvs hrest, ?_⟩
      intro hends t ht
      cases ht
      rw [List.append_nil] at hends
      simpa [hends] using hcall

end Longest

end ScalarLang
