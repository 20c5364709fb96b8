import ScalarLang.Proofs.Parse.Lookahead

/-!
# Only the order of the operators matters

Climbing compares precedences with each other and with bounds that it makes of them, and does no
more with them. So two tables that have the same operators in a source, and order those in the same
way, read it in the same way, into the same trees or up to the same failure. How large or how far
apart the precedences are does not matter, nor which other operators a table has.
-/
namespace ScalarLang

/-! ### Tokens that reading can come to -/

/-- The tokens in front of the first malformed literal. -/
def tokensInFront : List Lexeme → List Token
  | ⟨_, .token t⟩ :: rest => t :: tokensInFront rest
  | _ => []

/-- A symbol is among the tokens of a source, in front of its first malformed literal if it has
one. -/
def SymbolIn (file : String) (source : List Char) (text : String) : Prop :=
  ∃ t ∈ tokensInFront (lexemes file source), t.kind = .symbol text

namespace Reader

/-- The reader comes only to tokens of a set, up to the first malformed literal. -/
structure Meets (among : Token → Prop) (r : Reader) : Prop where
  current : ∀ t, r.current = some t → among t
  ahead : ∀ t ∈ tokensInFront r.ahead, among t

variable {among : Token → Prop} {r after : Reader}

theorem Meets.to_token {t : Token} {notes : List Note} {rest : List Lexeme} (h : r.Meets among)
    (ha : r.ahead = ⟨notes, .token t⟩ :: rest) :
    Meets among { r with current := some t, ahead := rest } := by
  have hahead := h.ahead
  rw [ha, tokensInFront] at hahead
  obtain ⟨ht, hrest⟩ := List.forall_mem_cons.1 hahead
  refine ⟨fun u hu => ?_, hrest⟩
  cases hu
  exact ht

theorem Meets.passes {ts : List Token} (h : r.Meets among) (hp : r.Passes ts after) :
    after.Meets among := by
  induction hp with
  | nil r => exact h
  | cons _ ha _ ih => exact ih (h.to_token ha)

theorem Meets.fetched {t : Token} (h : r.Meets among) (hr : r.Inside)
    (hfetch : Parse.fetch r = .ok t after) : after.Meets among := by
  rcases hr.fetch_ok_cases hfetch with ⟨rfl, _, _⟩ | ⟨notes, rest, ha, rfl⟩
  · exact h
  · exact h.to_token ha

end Reader

/-! ### Tables with the same order -/

namespace OperatorTable

/-- Two tables compare tokens of a set in the same way, with each other and with zero. -/
structure SameOrder (ops other : OperatorTable) (among : Token → Prop) : Prop where
  isOperator : ∀ t, among t → (ops.precedence t < 0 ↔ other.precedence t < 0)
  below : ∀ t u, among t → among u →
    (ops.precedence t < ops.precedence u ↔ other.precedence t < other.precedence u)

/-- Two bounds, each for the precedences of one table, leave the same tokens of a set below them. -/
def SameBound (ops other : OperatorTable) (among : Token → Prop) (least least' : Int) : Prop :=
  ∀ t, among t → (ops.precedence t < least ↔ other.precedence t < least')

variable {ops other : OperatorTable} {among : Token → Prop}

/-- The bound behind an operator leaves those below it that are not above the operator. -/
theorem SameOrder.bound_behind (h : SameOrder ops other among) {op : Token} (hop : among op) :
    SameBound ops other among (ops.precedence op + 1) (other.precedence op + 1) := by
  intro t ht
  have hbelow := h.below op t hop ht
  omega

/-- Tables with the same operators in the same order compare all symbols in the same way: what is no
operator is below every operator. -/
theorem sameOrder_of_symbols {occurs : String → Prop}
    (hhas : ∀ text, occurs text → ops.has (.text text) = other.has (.text text))
    (hbelow : ∀ text own, occurs text → occurs own → ops.has (.text text) = true →
      ops.has (.text own) = true → (ops.precedenceOf text < ops.precedenceOf own ↔
        other.precedenceOf text < other.precedenceOf own)) :
    SameOrder ops other fun t => ∀ text, t.kind = .symbol text → occurs text := by
  -- Each table has a symbol with a precedence of zero at least, or lacks it.
  have hcases : ∀ t : Token, (∀ text, t.kind = .symbol text → occurs text) →
      (∃ text, occurs text ∧ ops.has (.text text) = true ∧
        ops.precedence t = ops.precedenceOf text ∧ 0 ≤ ops.precedence t ∧
        other.precedence t = other.precedenceOf text ∧ 0 ≤ other.precedence t) ∨
      (ops.precedence t = -1 ∧ other.precedence t = -1) := by
    intro t ht
    cases hkind : t.kind with
    | symbol text =>
      have hops : ops.precedence t = ops.precedenceOf text := by rw [precedence, hkind]
      have hother : other.precedence t = other.precedenceOf text := by rw [precedence, hkind]
      have hsame := hhas text (ht text hkind)
      rcases precedenceOf_cases ops text with ⟨hin, _, p, _, _, hp⟩ | ⟨hout, hp⟩
      · rcases precedenceOf_cases other text with ⟨_, _, q, _, _, hq⟩ | ⟨hout, _⟩
        · exact Or.inl ⟨text, ht text hkind, hin, hops, by omega, hother, by omega⟩
        · rw [hin, hout] at hsame
          cases hsame
      · rcases precedenceOf_cases other text with ⟨hin, _⟩ | ⟨_, hq⟩
        · rw [hin, hout] at hsame
          cases hsame
        · exact Or.inr ⟨hops.trans hp, hother.trans hq⟩
    | _ => exact Or.inr ⟨by rw [precedence, hkind], by rw [precedence, hkind]⟩
  constructor
  · intro t ht
    rcases hcases t ht with ⟨_, _, _, _, hp, _, hq⟩ | ⟨hp, hq⟩
    · omega
    · omega
  · intro t u ht hu
    rcases hcases t ht with ⟨text, htext, hin, hp, _, hq, _⟩ | ⟨hp, hq⟩
    · rcases hcases u hu with ⟨own, hown, hin', hp', _, hq', _⟩ | ⟨hp', hq'⟩
      · rw [hp, hq, hp', hq']
        exact hbelow text own htext hown hin hin'
      · omega
    · rcases hcases u hu with ⟨_, _, _, _, hp', _, hq'⟩ | ⟨hp', hq'⟩
      · omega
      · omega

end OperatorTable

namespace Parse

/-- The two steps do the same wherever a reader comes only to tokens of a set. -/
def Same {α : Type} (among : Token → Prop) (x y : Parse α) : Prop :=
  ∀ r : Reader, r.Standing → r.Meets among → y r = x r

variable {α β : Type} {among : Token → Prop}

namespace Same

theorem refl (x : Parse α) : Same among x x := fun _ _ _ => rfl

theorem bind {x y : Parse α} {f g : α → Parse β} (hx : Advances x) (hxy : Same among x y)
    (hfg : ∀ a, Same among (f a) (g a)) : Same among (x >>= f) (y >>= g) := by
  intro r hr hmeets
  have hy := hxy r hr hmeets
  cases hstep : x r with
  | error failure after => rw [step_bind_error hstep, step_bind_error (hy.trans hstep)]
  | ok a after =>
    obtain ⟨ts, hp⟩ := (hx r hr).ok a after hstep
    rw [step_bind_ok hstep, step_bind_ok (hy.trans hstep)]
    exact hfg a after (hr.passes hp) (hmeets.passes hp)

theorem after {x : Parse α} {f g : α → Parse β} (hx : Advances x)
    (hfg : ∀ a, Same among (f a) (g a)) : Same among (x >>= f) (x >>= g) :=
  .bind hx (.refl x) hfg

theorem after_current {f g : Token → Parse α} (hfg : ∀ t, among t → Same among (f t) (g t)) :
    Same among (current >>= f) (current >>= g) := by
  intro r hr hmeets
  obtain ⟨t, ht⟩ := hr.current
  rw [step_bind_ok (current_of_some ht), step_bind_ok (current_of_some ht)]
  exact hfg t (hmeets.current t ht) r hr hmeets

theorem andThen {x y : Parse α} (h : Same among x y) (f : α → Parse β) :
    Same among (x >>= f) (y >>= f) := by
  intro r hr hmeets
  have hy := h r hr hmeets
  cases hstep : x r with
  | error failure after => rw [step_bind_error hstep, step_bind_error (hy.trans hstep)]
  | ok a after => rw [step_bind_ok hstep, step_bind_ok (hy.trans hstep)]

theorem map {x y : Parse α} (h : Same among x y) (g : α → β) :
    Same among (g <$> x) (g <$> y) := by
  rw [← bind_pure_comp, ← bind_pure_comp]
  exact h.andThen _

theorem ite {c d : Prop} [Decidable c] [Decidable d] {x y x' y' : Parse α} (hcd : c ↔ d)
    (hx : Same among x x') (hy : Same among y y') :
    Same among (if c then x else y) (if d then x' else y') := by
  rw [if_congr hcd rfl rfl]
  split
  · exact hx
  · exact hy

end Same

/-! ### Parts of expressions -/

section Parts

variable {inner other : Parse Expr}

theorem parenthesized_same (h : Same among inner other) :
    Same among (parenthesized inner) (parenthesized other) :=
  .after fetch_advances fun _ => h.andThen _

theorem arguments_same (hinner : Advances inner) (h : Same among inner other) (fuel : Nat)
    (done : List Expr) : Same among (arguments inner fuel done) (arguments other fuel done) := by
  induction fuel generalizing done with
  | zero => exact .refl _
  | succ fuel ih =>
    refine .bind hinner h fun arg => .after current_advances fun t => .ite Iff.rfl (.refl _) ?_
    exact .after (require_advances _ _) fun _ => .after fetch_advances fun _ => ih _

theorem application_same (hinner : Advances inner) (h : Same among inner other) :
    Same among (application inner) (application other) := by
  have hlist : Same among (argumentList inner) (argumentList other) :=
    .after fetch_advances fun _ => .ite Iff.rfl (.refl _)
      (.after rounds_advances fun fuel => arguments_same hinner h fuel [])
  exact .after fetch_advances fun _ => .ite Iff.rfl (hlist.andThen _) (.refl _)

end Parts

/-! ### Productions -/

section Tables

variable {ops other : OperatorTable}

/-- The bounds of the two climbs need not be equal, as long as the same tokens are below them. -/
theorem chain_same (horder : ops.SameOrder other among) {primary primary' : Parse Expr}
    {climb climb' : Int → Expr → Parse Expr} (hprimary : Advances primary)
    (hsame : Same among primary primary') (hclimb : ∀ least lhs, Advances (climb least lhs))
    (hclimbs : ∀ least least' lhs, ops.SameBound other among least least' →
      Same among (climb least lhs) (climb' least' lhs))
    {least least' : Int} (hleast : ops.SameBound other among least least') (fuel : Nat)
    (lhs : Expr) :
    Same among (chain ops primary climb least fuel lhs)
      (chain other primary' climb' least' fuel lhs) := by
  have hright : ∀ op, among op → ∀ operand,
      Same among (rightSide ops climb (ops.precedence op) operand)
        (rightSide other climb' (other.precedence op) operand) := by
    intro op hop operand
    refine .after_current fun t ht => .ite (horder.below op t hop ht) ?_ (.refl _)
    exact hclimbs _ _ operand (horder.bound_behind hop)
  induction fuel generalizing lhs with
  | zero => exact .refl _
  | succ fuel ih =>
    refine .after_current fun op hop => .ite (hleast op hop) (.refl _) ?_
    exact .after fetch_advances fun _ => .bind hprimary hsame fun operand =>
      .bind (rightSide_advances ops hclimb _ operand) (hright op hop operand) fun rhs => ih _

theorem productions_same (horder : ops.SameOrder other among) (depth : Nat) :
    Same among (expression ops depth) (expression other depth) ∧
      (∀ least least' lhs, ops.SameBound other among least least' →
        Same among (climb ops depth least lhs) (climb other depth least' lhs)) ∧
      Same among (primary ops depth) (primary other depth) := by
  induction depth with
  | zero => exact ⟨.refl _, fun _ _ _ _ => .refl _, .refl _⟩
  | succ depth ih =>
    obtain ⟨hexpression, hclimb, hprimary⟩ := ih
    obtain ⟨hexpressions, hclimbs, hprimaries⟩ := productions_advance ops depth
    refine ⟨.bind hprimaries hprimary fun lhs => hclimb 0 0 lhs horder.isOperator,
      fun least least' lhs hleast => ?_, ?_⟩
    · exact .after rounds_advances fun fuel =>
        chain_same horder hprimaries hprimary hclimbs hclimb hleast fuel lhs
    · refine .after current_advances fun t => ?_
      cases t.kind with
      | identifier name => exact (application_same hexpressions hexpression).andThen _
      | number value => exact .refl _
      | _ => exact .ite Iff.rfl (parenthesized_same hexpression) (.refl _)

/-! ### Forms -/

theorem form_same (horder : ops.SameOrder other among) (depth : Nat) :
    Same among (form? ops depth) (form? other depth) := by
  have hexpression := (productions_same horder depth).1
  have hdefinition : Same among (definition ops depth) (definition other depth) :=
    .after fetch_advances fun _ => .after prototype_advances fun _ => hexpression.andThen _
  have hbare : Same among (bareExpression ops depth) (bareExpression other depth) :=
    .after current_advances fun _ => hexpression.andThen _
  intro r hr hmeets
  obtain ⟨t, ht⟩ := hr.current
  rw [form?, form?, step_bind_ok (start_of_some ht), step_bind_ok (start_of_some ht)]
  cases t.kind with
  | eof => rfl
  | define => exact ((hdefinition.map _).map _) r hr hmeets
  | external => rfl
  | _ => exact Same.ite Iff.rfl (.refl _) ((hbare.map _).map _) r hr hmeets

theorem formsFrom_same (horder : ops.SameOrder other among) (depth fuel : Nat) :
    Same among (formsFrom ops depth fuel) (formsFrom other depth fuel) := by
  induction fuel with
  | zero => exact .refl _
  | succ fuel ih =>
    exact .after current_advances fun t => .ite Iff.rfl (.refl _)
      (.bind (form_advances ops depth) (form_same horder depth) fun _ => ih.andThen _)

/-- Two tables that have the same symbols among those of a source, and order their precedences in
the same way, read all forms of the source alike, under every depth budget: the same forms with
their places, or the same failure. -/
theorem only_the_order_of_operators_matters {file : String} {source : List Char}
    (hhas : ∀ text, SymbolIn file source text → ops.has (.text text) = other.has (.text text))
    (hbelow : ∀ text own, SymbolIn file source text → SymbolIn file source own →
      ops.has (.text text) = true → ops.has (.text own) = true →
      (ops.precedenceOf text < ops.precedenceOf own ↔
        other.precedenceOf text < other.precedenceOf own))
    (depth : Nat) :
    (all other depth).result (.ofSource file source) =
      (all ops depth).result (.ofSource file source) := by
  have horder := OperatorTable.sameOrder_of_symbols hhas hbelow
  have hinside := Reader.inside_ofSource file source
  have hmeets : (Reader.ofSource file source).Meets
      fun t => ∀ text, t.kind = .symbol text → SymbolIn file source text :=
    ⟨fun _ hnone => (Option.some_ne_none _ hnone.symm).elim,
      fun t ht text hkind => ⟨t, ht, hkind⟩⟩
  unfold Parse.result all
  cases hfetch : fetch (.ofSource file source) with
  | error failure after => rw [step_bind_error hfetch, step_bind_error hfetch]
  | ok t first =>
    obtain ⟨hfirst, _⟩ := standing_of_fetch hinside hfetch
    have hsame := formsFrom_same horder depth (first.ahead.length + 1) first hfirst
      (hmeets.fetched hinside hfetch)
    rw [step_bind_ok hfetch, step_bind_ok hfetch, step_bind_ok (rounds_eq first),
      step_bind_ok (rounds_eq first), hsame]

end Tables

/-- A table with precedences far apart, and with an operator that comes below all others. -/
def farApart : OperatorTable :=
  { entries := [('&', 1), ('*', 1000000000000000000000), ('+', 7), ('<', 6)] }

/-- The table has all but one of the usual operators and orders them as usual. -/
theorem only_the_order_of_operators_matters_far_apart :
    OperatorTable.ofSettings [(.text "&", .whole 1), (.text "*", .whole 1000000000000000000000),
      (.text "+", .whole 7), (.text "<", .whole 6)] = .ok farApart ∧
    ∀ depth, (all farApart depth).result (.ofSource "" "a<b+c*d".toList) =
      (all .standard depth).result (.ofSource "" "a<b+c*d".toList) := by
  have hkinds : (tokensInFront (lexemes "" "a<b+c*d".toList)).map Token.kind =
      [.identifier "a", .symbol "<", .identifier "b", .symbol "+", .identifier "c", .symbol "*",
        .identifier "d", .eof] := rfl
  have hin : ∀ text, SymbolIn "" "a<b+c*d".toList text → text = "<" ∨ text = "+" ∨ text = "*" := by
    rintro text ⟨t, ht, hkind⟩
    have hmem := List.mem_map_of_mem (f := Token.kind) ht
    rw [hkinds, hkind] at hmem
    simpa using hmem
  refine ⟨rfl, fun depth => only_the_order_of_operators_matters ?_ ?_ depth⟩
  · intro text htext
    rcases hin text htext with rfl | rfl | rfl
    all_goals decide
  · intro text own htext hown _ _
    rcases hin text htext with rfl | rfl | rfl
    all_goals rcases hin own hown with rfl | rfl | rfl
    all_goals decide

end Parse
end ScalarLang
