import ScalarLang.Proofs.Parse.Climbing

/-!
# The tree that tokens are read as

Which tokens an operand, an expression or a row of arguments is written with, and how such tokens
start and end.
-/
namespace ScalarLang

/-- What tokens are read as. -/
inductive Phrase where
  | operand (e : Expr)
  | expression (e : Expr)
  | arguments (es : List Expr)

/-- Tokens are written for a phrase. -/
inductive Reading (ops : OperatorTable) : Phrase → List Token → Prop
  | number {t : Token} {value : Float} (h : t.kind = .number value) :
      Reading ops (.operand (.number value t.location)) [t]
  | name {t : Token} {name : String} (h : t.kind = .identifier name) :
      Reading ops (.operand (.var name t.location)) [t]
  | call {t left right : Token} {name : String} {args : List Expr} {ts : List Token}
      (h : t.kind = .identifier name) (hleft : left.isSymbol "(" = true)
      (hargs : Reading ops (.arguments args) ts) (hright : right.isSymbol ")" = true) :
      Reading ops (.operand (.call name args t.location)) (t :: left :: (ts ++ [right]))
  | parenthesized {left right : Token} {e : Expr} {ts : List Token}
      (hleft : left.isSymbol "(" = true) (h : Reading ops (.expression e) ts)
      (hright : right.isSymbol ")" = true) : Reading ops (.operand e) (left :: (ts ++ [right]))
  | chain {first : Expr} {ts : List Token} {links : List Link}
      (hfirst : Reading ops (.operand first) ts) (hops : ∀ link ∈ links, ops.Joins link.op)
      (hlinks : ∀ link ∈ links, Reading ops (.operand link.operand) link.tokens) :
      Reading ops (.expression (group ops first links)) (ts ++ links.flatMap Link.written)
  | noArguments : Reading ops (.arguments []) []
  | lastArgument {e : Expr} {ts : List Token} (h : Reading ops (.expression e) ts) :
      Reading ops (.arguments [e]) ts
  | argument {e second : Expr} {rest : List Expr} {comma : Token} {ts us : List Token}
      (h : Reading ops (.expression e) ts) (hcomma : comma.isSymbol "," = true)
      (hrest : Reading ops (.arguments (second :: rest)) us) :
      Reading ops (.arguments (e :: second :: rest)) (ts ++ comma :: us)

theorem Reading.alone {ops : OperatorTable} {e : Expr} {ts : List Token}
    (h : Reading ops (.operand e) ts) : Reading ops (.expression e) ts := by
  have hchain := Reading.chain h (List.forall_mem_nil _) (List.forall_mem_nil _)
  rwa [group_nil, List.flatMap_nil, List.append_nil] at hchain

/-! ### First and last tokens -/

/-- An expression can start with the token. -/
def Token.Opens (t : Token) : Prop :=
  (∃ name, t.kind = .identifier name) ∨ (∃ value, t.kind = .number value) ∨
    t.isSymbol "(" = true

/-- The last token is a name. -/
def EndsInName (ts : List Token) : Prop := ∃ t ∈ ts.getLast?, ∃ name, t.kind = .identifier name

theorem Token.kind_of_isSymbol {t : Token} {text : String} (h : t.isSymbol text = true) :
    t.kind = .symbol text := by
  unfold isSymbol at h
  split at h
  · next own hown =>
    rw [hown, eq_of_beq h]
  · cases h

theorem Token.isSymbol_of_kind {t : Token} {text : String} (h : t.kind = .symbol text) :
    t.isSymbol text = true := by
  simp [isSymbol, h]

theorem Token.word_of_kind {t : Token} {text : String} (h : t.kind = .symbol text) :
    t.word = text := by
  simp [word, h, TokenKind.meaning]

theorem Token.isSymbol_of_ne {t : Token} {text other : String} (h : t.isSymbol text = true)
    (hne : text ≠ other) : t.isSymbol other = false := by
  rw [isSymbol, kind_of_isSymbol h]
  exact beq_false_of_ne hne

theorem Token.Opens.isSymbol_eq_false {t : Token} (h : t.Opens) {text : String}
    (hne : text ≠ "(") : t.isSymbol text = false := by
  rcases h with ⟨name, h⟩ | ⟨value, h⟩ | h
  · rw [isSymbol, h]
  · rw [isSymbol, h]
  · exact isSymbol_of_ne h hne.symm

theorem Token.Opens.isEnd_eq_false {t : Token} (h : t.Opens) : t.isEnd = false := by
  rcases h with ⟨name, h⟩ | ⟨value, h⟩ | h
  · rw [isEnd, h]
  · rw [isEnd, h]
  · rw [isEnd, kind_of_isSymbol h]

theorem Reading.starts {ops : OperatorTable} {phrase : Phrase} {ts : List Token}
    (h : Reading ops phrase ts) (hne : phrase ≠ .arguments []) :
    ∃ t rest, ts = t :: rest ∧ t.Opens := by
  induction h with
  | number h => exact ⟨_, _, rfl, Or.inr (Or.inl ⟨_, h⟩)⟩
  | name h => exact ⟨_, _, rfl, Or.inl ⟨_, h⟩⟩
  | call h _ _ _ _ => exact ⟨_, _, rfl, Or.inl ⟨_, h⟩⟩
  | parenthesized hleft _ _ _ => exact ⟨_, _, rfl, Or.inr (Or.inr hleft)⟩
  | chain _ _ _ ihfirst _ =>
    obtain ⟨t, rest, rfl, ht⟩ := ihfirst (by simp)
    exact ⟨t, _, rfl, ht⟩
  | noArguments => exact absurd rfl hne
  | lastArgument _ ih => exact ih (by simp)
  | argument _ _ _ ih _ =>
    obtain ⟨t, rest, rfl, ht⟩ := ih (by simp)
    exact ⟨t, _, rfl, ht⟩

theorem EndsInName.append {ts us : List Token} (h : EndsInName us) : EndsInName (ts ++ us) := by
  obtain ⟨t, ht, hname⟩ := h
  refine ⟨t, ?_, hname⟩
  rw [List.getLast?_append, ht]
  rfl

theorem EndsInName.of_link {links : List Link} {link : Link} (hlink : link ∈ links.getLast?)
    (h : EndsInName link.tokens) : EndsInName (links.flatMap Link.written) := by
  obtain ⟨front, rfl⟩ := List.getLast?_eq_some_iff.1 hlink
  rw [List.flatMap_append, List.flatMap_singleton]
  have hwritten : EndsInName ([link.op] ++ link.tokens) := h.append
  exact hwritten.append

/-- A reader passes tokens up to the token `next`, which does not make a call of a name that they
end in. -/
structure Reader.PassesTo (r : Reader) (ts : List Token) (next : Token) (after : Reader) : Prop where
  passes : r.Passes ts after
  current : after.current = some next
  apart : EndsInName ts → next.isSymbol "(" = false

theorem Reader.Passes.to_symbol {r after : Reader} {ts : List Token} {next : Token} {text : String}
    (hp : r.Passes ts after) (hc : after.current = some next) (h : next.isSymbol text = true)
    (hne : text ≠ "(") : r.PassesTo ts next after :=
  ⟨hp, hc, fun _ => Token.isSymbol_of_ne h hne⟩

end ScalarLang
