import ScalarLang.Proofs.Parse.Parentheses
import ScalarLang.Proofs.Parse.Progress

/-!
# Nested productions

Which productions of expressions call each other, at which readers, and what a call comes to for the
caller: it does what it calls, and then moves forward.
-/
namespace ScalarLang.Parse

variable {α β γ : Type} {ops : OperatorTable} {depth : Nat}

/-- A production of expressions, with what it is given. -/
inductive Production where
  | expression
  | climb (least : Nat) (lhs : Expr)
  | primary

/-- The step of a production under a budget. -/
def Production.step (ops : OperatorTable) (depth : Nat) : Production → Parse Expr
  | expression => Parse.expression ops depth
  | climb least lhs => Parse.climb ops depth least lhs
  | primary => Parse.primary ops depth

/-- A production that is entered at a reader. -/
structure Activation where
  production : Production
  reader : Reader

/-- What an activation comes to under a budget. -/
def Activation.run (ops : OperatorTable) (depth : Nat) (a : Activation) :
    EStateM.Result Failure Reader Expr :=
  a.production.step ops depth a.reader

/-- Whole rounds of a chain, each of them an operator, an operand and what binds tighter. -/
inductive Rounds (ops : OperatorTable) (depth least : Nat) : Expr → Reader → Expr → Reader → Prop
  | none (lhs : Expr) (r : Reader) : Rounds ops depth least lhs r lhs r
  | more {lhs lhs' operand rhs : Expr} {r start middle later after : Reader} {op t : Token}
      {p : Nat} (hc : r.current = some op) (hp : ops.precedence op = p) (hle : least ≤ p)
      (hfetch : fetch r = .ok t start) (hoperand : primary ops depth start = .ok operand middle)
      (hright : rightSide ops (climb ops depth) p operand middle = .ok rhs later)
      (h : Rounds ops depth least (.binary op.word lhs rhs op.location) later lhs' after) :
      Rounds ops depth least lhs r lhs' after

/-- Whole arguments, each of them with the comma behind it. -/
inductive Arguments (ops : OperatorTable) (depth : Nat) : Reader → Reader → Prop
  | none (r : Reader) : Arguments ops depth r r
  | more {arg : Expr} {r middle start after : Reader} {comma t : Token}
      (harg : expression ops depth r = .ok arg middle) (hc : middle.current = some comma)
      (hcomma : comma.isSymbol "," = true) (hfetch : fetch middle = .ok t start)
      (h : Arguments ops depth start after) : Arguments ops depth r after

/-- An activation calls another, for which `depth` levels of the budget are left. -/
inductive Calls (ops : OperatorTable) (depth : Nat) : Activation → Activation → Prop
  | operand (r : Reader) : Calls ops depth ⟨.expression, r⟩ ⟨.primary, r⟩
  | chain {r middle : Reader} {lhs : Expr} (h : primary ops depth r = .ok lhs middle) :
      Calls ops depth ⟨.expression, r⟩ ⟨.climb 0 lhs, middle⟩
  | nextOperand {least p : Nat} {lhs lhs' : Expr} {r middle start : Reader} {op t : Token}
      (h : Rounds ops depth least lhs r lhs' middle) (hc : middle.current = some op)
      (hp : ops.precedence op = p) (hle : least ≤ p) (hfetch : fetch middle = .ok t start) :
      Calls ops depth ⟨.climb least lhs, r⟩ ⟨.primary, start⟩
  | tighter {least p : Nat} {lhs lhs' operand : Expr} {r middle start later : Reader}
      {op t next : Token} (h : Rounds ops depth least lhs r lhs' middle)
      (hc : middle.current = some op) (hp : ops.precedence op = p) (hle : least ≤ p)
      (hfetch : fetch middle = .ok t start) (hoperand : primary ops depth start = .ok operand later)
      (hn : later.current = some next) (hlt : p < ops.precedence next) :
      Calls ops depth ⟨.climb least lhs, r⟩ ⟨.climb (p + 1) operand, later⟩
  | parenthesized {r start : Reader} {left t : Token} (hc : r.current = some left)
      (hleft : left.isSymbol "(" = true) (hfetch : fetch r = .ok t start) :
      Calls ops depth ⟨.primary, r⟩ ⟨.expression, start⟩
  | argument {r first start later : Reader} {t left second : Token} {name : String}
      (hc : r.current = some t) (ht : t.kind = .identifier name) (hname : fetch r = .ok left first)
      (hleft : left.isSymbol "(" = true) (hopen : fetch first = .ok second start)
      (hsecond : second.isSymbol ")" = false) (h : Arguments ops depth start later) :
      Calls ops depth ⟨.primary, r⟩ ⟨.expression, later⟩

/-- Activations that are each called by the one before, from the first one to the last. -/
inductive Nested (ops : OperatorTable) : Nat → Activation → List Activation → Activation → Prop
  | last (depth : Nat) (a : Activation) : Nested ops depth a [a] a
  | call {depth : Nat} {a b last : Activation} {path : List Activation} (h : Calls ops depth a b)
      (hb : Nested ops depth b path last) : Nested ops (depth + 1) a (a :: path) last

/-! ### What is passed before a call -/

section Passing

variable {least p : Nat} {r start middle later after : Reader} {op t : Token}
  {lhs lhs' operand rhs e : Expr}

theorem joins_of_precedence_eq (hp : ops.precedence op = (p : Int)) : ops.Joins op :=
  OperatorTable.joins_of_precedence (by omega)

theorem isEnd_of_precedence_eq (hp : ops.precedence op = (p : Int)) : op.isEnd = false := by
  obtain ⟨text, hkind, _⟩ := joins_of_precedence_eq hp
  rw [Token.isEnd, hkind]

theorem Deepens.operator (hops : ops.Reachable) (hr : r.Ends) (hc : r.current = some op)
    (hp : ops.precedence op = (p : Int)) (hfetch : fetch r = .ok t start) : Deepens r 0 start := by
  have hone := Deepens.single hr hc (isEnd_of_precedence_eq hp) hfetch
  rwa [openedBy_of_joins hops (joins_of_precedence_eq hp)] at hone

theorem Deepens.primary (hops : ops.Reachable) (hr : r.Ends)
    (h : Parse.primary ops depth r = .ok e after) : Deepens r 0 after :=
  .of_yields hops ((productions_sound ops depth).2.2 r e after hr h)

theorem Rounds.deepens (hops : ops.Reachable) (h : Rounds ops depth least lhs r lhs' after)
    (hr : r.Ends) : Deepens r 0 after := by
  induction h with
  | none lhs r => exact .refl r
  | @more lhs lhs' operand rhs r start middle later after op t p hc hp _ hfetch hoperand hright
      _ ih =>
    have hop := Deepens.operator hops hr hc hp hfetch
    have hstart := hop.ends hr
    have hprimary := Deepens.primary hops hstart hoperand
    have hmiddle := hprimary.ends hstart
    obtain ⟨_, htight, _⟩ := rightSide_sound ((productions_sound ops depth).2.1 (p + 1) (by omega))
      operand middle rhs later hmiddle hright
    have hlater := Deepens.of_yields hops htight
    exact ((hop.trans hprimary).trans hlater).trans (ih (hlater.ends hmiddle))

theorem Arguments.deepens (hops : ops.Reachable) (h : Arguments ops depth r after)
    (hr : r.Ends) : Deepens r 0 after := by
  induction h with
  | none r => exact .refl r
  | @more arg r middle start after comma t harg hc hcomma hfetch _ ih =>
    have hyields := (productions_sound ops depth).1 r arg middle hr harg
    have hexpression := Deepens.of_yields hops hyields
    have hmiddle := hexpression.ends hr
    have hone := Deepens.single hmiddle hc (isEnd_of_isSymbol hcomma) hfetch
    rw [openedBy_of_ne (Token.isSymbol_of_ne hcomma (by decide))
      (Token.isSymbol_of_ne hcomma (by decide))] at hone
    exact (hexpression.trans hone).trans (ih (hone.ends hmiddle))

/-- The parentheses that a production opens before it calls another. -/
def Production.opens : Production → Nat
  | primary => 1
  | _ => 0

theorem Calls.deepens (hops : ops.Reachable) {a b : Activation} (h : Calls ops depth a b)
    (hr : a.reader.Ends) : Deepens a.reader a.production.opens b.reader := by
  cases h with
  | operand r => exact .refl r
  | chain h => exact .primary hops hr h
  | nextOperand h hc hp _ hfetch =>
    have hrounds := h.deepens hops hr
    exact hrounds.trans (.operator hops (hrounds.ends hr) hc hp hfetch)
  | tighter h hc hp _ hfetch hoperand _ _ =>
    have hrounds := h.deepens hops hr
    have hop := hrounds.trans (.operator hops (hrounds.ends hr) hc hp hfetch)
    exact hop.trans (.primary hops (hop.ends hr) hoperand)
  | parenthesized hc hleft hfetch =>
    have hone := Deepens.single hr hc (isEnd_of_isSymbol hleft) hfetch
    rwa [openedBy_left hleft] at hone
  | @argument r first start later t left second name hc ht hname hleft hopen _ h =>
    obtain ⟨hpass, hnext⟩ := fetch_eq_ok hr hc (by rw [Token.isEnd, ht]) hname
    have hfirst : Deepens r 0 first :=
      ⟨[t], hpass, by simp [opened_cons, opened_nil, openedBy_of_kind, ht]⟩
    have hone := Deepens.single (hfirst.ends hr) hnext (isEnd_of_isSymbol hleft) hopen
    rw [openedBy_left hleft] at hone
    exact (hfirst.trans hone).trans (h.deepens hops (hone.ends (hfirst.ends hr)))

theorem Calls.standing (hops : ops.Reachable) {a b : Activation} (h : Calls ops depth a b)
    (hr : a.reader.Standing) : b.reader.Standing := by
  obtain ⟨ts, hp, _⟩ := h.deepens hops hr.inside.ends
  exact hr.passes hp

end Passing

/-! ### What a call comes to -/

/-- At the reader the step does what `inner` does at `start`, and then moves forward. -/
def Resumes (step : Parse α) (r : Reader) (inner : Parse β) (start : Reader) : Prop :=
  ∃ rest : β → Parse α, (∀ b, Advances (rest b)) ∧ step r = (inner >>= rest) start

namespace Resumes

variable {step : Parse α} {inner : Parse β} {r middle start : Reader}

theorem bind {f : α → Parse γ} (h : Resumes step r inner start) (hf : ∀ a, Advances (f a)) :
    Resumes (step >>= f) r inner start := by
  obtain ⟨rest, hrest, heq⟩ := h
  refine ⟨fun b => rest b >>= f, fun b => (hrest b).bind hf, ?_⟩
  change EStateM.bind step f r = EStateM.bind inner (fun b => rest b >>= f) start
  change step r = EStateM.bind inner rest start at heq
  unfold EStateM.bind at heq ⊢
  rw [heq]
  cases inner start with
  | ok b after => rfl
  | error e after => rfl

theorem of_bind {f : β → Parse α} (hf : ∀ b, Advances (f b)) : Resumes (inner >>= f) r inner r :=
  ⟨f, hf, rfl⟩

theorem whole (inner : Parse β) (r : Reader) : Resumes inner r inner r :=
  ⟨pure, .pure, by rw [bind_pure]⟩

theorem after_ok {first : Parse γ} {f : γ → Parse α} {c : γ} (h : first r = .ok c middle)
    (hf : Resumes (f c) middle inner start) : Resumes (first >>= f) r inner start := by
  obtain ⟨rest, hrest, heq⟩ := hf
  exact ⟨rest, hrest, (step_bind_ok h).trans heq⟩

theorem congr {other : Parse α} (h : Resumes step middle inner start)
    (heq : other r = step middle) : Resumes other r inner start := by
  obtain ⟨rest, hrest, hstep⟩ := h
  exact ⟨rest, hrest, heq.trans hstep⟩

theorem exhausted (h : Resumes step r inner start) (hinner : Exhausted (inner start)) :
    Exhausted (step r) := by
  obtain ⟨rest, _, heq⟩ := h
  obtain ⟨t, after, hfail⟩ := hinner
  exact ⟨t, after, heq.trans (step_bind_error hfail)⟩

theorem returns {a : α} {after : Reader} (h : Resumes step r inner start) (hr : start.Standing)
    (hinner : Advances inner) (hstep : step r = .ok a after) :
    ∃ b middle ts, inner start = .ok b middle ∧ middle.Passes ts after := by
  obtain ⟨rest, hrest, heq⟩ := h
  obtain ⟨b, middle, hb, ha⟩ := step_bind_eq_ok.1 (heq.symm.trans hstep)
  obtain ⟨ts, hts⟩ := (hinner start hr).ok b middle hb
  obtain ⟨us, hus⟩ := (hrest b middle (hr.passes hts)).ok a after ha
  exact ⟨b, middle, us, hb, hus⟩

end Resumes

theorem step_advances (ops : OperatorTable) (depth : Nat) (p : Production) :
    Advances (p.step ops depth) := by
  obtain ⟨hexpression, hclimb, hprimary⟩ := productions_advance ops depth
  cases p with
  | expression => exact hexpression
  | climb least lhs => exact hclimb least lhs
  | primary => exact hprimary

section Resuming

variable {least p : Nat} {r start middle later after : Reader} {op t : Token}
  {lhs lhs' operand rhs e : Expr} {inner : Parse β}
  {next : Token}

theorem round_eq {fuel : Nat} (hc : r.current = some op) (hp : ops.precedence op = p)
    (hle : least ≤ p) (hfetch : fetch r = .ok t start) :
    chain ops (primary ops depth) (climb ops depth) least (fuel + 1) lhs r =
      (primary ops depth >>= fun operand => rightSide ops (climb ops depth) p operand >>= fun rhs =>
        chain ops (primary ops depth) (climb ops depth) least fuel
          (.binary op.word lhs rhs op.location)) start := by
  have hge : ¬ ops.precedence op < (least : Int) := by omega
  rw [chain, step_bind_ok (current_of_some hc)]
  simp only [if_neg hge]
  rw [step_bind_ok hfetch, hp]

/-- Rounds that are over leave enough rounds for what is ahead, so it does not matter how many
there are. -/
theorem Rounds.resumes (h : Rounds ops depth least lhs r lhs' after) (hr : r.Standing)
    (hlast : ∀ fuel, after.ahead.length < fuel →
      Resumes (chain ops (primary ops depth) (climb ops depth) least fuel lhs') after inner start)
    {fuel : Nat} (hfuel : r.ahead.length < fuel) :
    Resumes (chain ops (primary ops depth) (climb ops depth) least fuel lhs) r inner start := by
  induction h generalizing fuel with
  | none lhs r => exact hlast fuel hfuel
  | @more lhs lhs' operand rhs r start middle later after op t p hc hp hle hfetch hoperand hright
      _ ih =>
    obtain ⟨fuel, rfl⟩ : ∃ k, fuel = k + 1 := ⟨fuel - 1, by omega⟩
    have hop := (fetch_eq_ok hr.inside.ends hc (isEnd_of_precedence_eq hp) hfetch).1
    have hstart := hr.passes hop
    obtain ⟨ts, hts⟩ := (step_advances ops depth .primary start hstart).ok operand middle hoperand
    have hmiddle := hstart.passes hts
    obtain ⟨us, hus⟩ := (rightSide_advances ops (productions_advance ops depth).2.1 p operand
      middle hmiddle).ok rhs later hright
    have hlength : later.ahead.length < fuel := by
      have hone := hop.length_ahead
      have htwo := hts.length_ahead
      have hthree := hus.length_ahead
      rw [List.length_singleton] at hone
      omega
    have hrest := ih (hmiddle.passes hus) hlast hlength
    exact Resumes.congr (Resumes.after_ok hoperand (Resumes.after_ok hright hrest))
      (round_eq hc hp hle hfetch)

theorem tighter_resumes {fuel : Nat} {operand : Expr} (hc : r.current = some op)
    (hp : ops.precedence op = p) (hle : least ≤ p) (hfetch : fetch r = .ok t start)
    (hoperand : primary ops depth start = .ok operand later) (hn : later.current = some next)
    (hlt : p < ops.precedence next) :
    Resumes (chain ops (primary ops depth) (climb ops depth) least (fuel + 1) lhs) r
      (climb ops depth (p + 1 : Nat) operand) later := by
  obtain ⟨_, hclimb, hprimary⟩ := productions_advance ops depth
  have hright : Resumes (rightSide ops (climb ops depth) p operand) later
      (climb ops depth (p + 1 : Nat) operand) later := by
    refine (Resumes.whole _ later).congr ?_
    rw [rightSide, step_bind_ok (current_of_some hn), if_pos hlt, Int.natCast_succ]
  refine Resumes.congr ?_ (round_eq hc hp hle hfetch)
  exact Resumes.after_ok hoperand
    (hright.bind fun _ => chain_advances ops hprimary hclimb _ fuel _)

theorem nextOperand_resumes {fuel : Nat} (hc : r.current = some op)
    (hp : ops.precedence op = p) (hle : least ≤ p) (hfetch : fetch r = .ok t start) :
    Resumes (chain ops (primary ops depth) (climb ops depth) least (fuel + 1) lhs) r
      (primary ops depth) start := by
  obtain ⟨_, hclimb, hprimary⟩ := productions_advance ops depth
  refine Resumes.congr ?_ (round_eq hc hp hle hfetch)
  exact Resumes.of_bind fun operand => (rightSide_advances ops hclimb p operand).bind
    fun _ => chain_advances ops hprimary hclimb _ fuel _

theorem climb_resumes (h : Rounds ops depth least lhs r lhs' middle) (hr : r.Standing)
    (hlast : ∀ fuel, Resumes (chain ops (primary ops depth) (climb ops depth) least (fuel + 1) lhs')
      middle inner start) :
    Resumes (climb ops (depth + 1) least lhs) r inner start := by
  refine Resumes.after_ok (rounds_eq r) (h.resumes hr ?_ (Nat.lt_succ_self _))
  intro fuel hfuel
  obtain ⟨fuel, rfl⟩ : ∃ k, fuel = k + 1 := ⟨fuel - 1, by omega⟩
  exact hlast fuel

theorem Arguments.resumes (h : Arguments ops depth r start) (hr : r.Standing) {fuel : Nat}
    (hfuel : r.ahead.length < fuel) (done : List Expr) :
    Resumes (arguments (expression ops depth) fuel done) r (expression ops depth) start := by
  have hexpression := (productions_advance ops depth).1
  induction h generalizing fuel done with
  | none r =>
    obtain ⟨fuel, rfl⟩ : ∃ k, fuel = k + 1 := ⟨fuel - 1, by omega⟩
    refine Resumes.of_bind fun arg => current_advances.bind fun t => .ite (.pure _) ?_
    exact (require_advances _ _).bind fun _ => fetch_advances.bind fun _ =>
      arguments_advances hexpression fuel _
  | @more arg r middle start after comma t harg hc hcomma hfetch _ ih =>
    obtain ⟨fuel, rfl⟩ : ∃ k, fuel = k + 1 := ⟨fuel - 1, by omega⟩
    obtain ⟨ts, hts⟩ := (hexpression r hr).ok arg middle harg
    have hmiddle := hr.passes hts
    have hpass := pass_symbol hmiddle.inside.ends hc hcomma hfetch
    have hlength : start.ahead.length < fuel := by
      have hone := hts.length_ahead
      have htwo := hpass.length_ahead
      rw [List.length_singleton] at htwo
      omega
    have hopen : comma.isSymbol ")" = false := Token.isSymbol_of_ne hcomma (by decide)
    refine Resumes.after_ok harg ?_
    refine Resumes.after_ok (current_of_some hc) ?_
    simp only [hopen, Bool.false_eq_true, if_false]
    refine Resumes.after_ok (require_of_isSymbol _ hc hcomma) ?_
    exact Resumes.after_ok hfetch (ih (hmiddle.passes hpass) hlength _)

theorem primary_resumes_argument {left second : Token} {name : String} {first : Reader}
    (hr : r.Standing) (hc : r.current = some t) (ht : t.kind = .identifier name)
    (hname : fetch r = .ok left first) (hleft : left.isSymbol "(" = true)
    (hopen : fetch first = .ok second middle) (hsecond : second.isSymbol ")" = false)
    (h : Arguments ops depth middle start) :
    Resumes (primary ops (depth + 1)) r (expression ops depth) start := by
  obtain ⟨hpass, hleftc⟩ := fetch_eq_ok hr.inside.ends hc (by rw [Token.isEnd, ht]) hname
  have hfirst := hr.passes hpass
  have hmiddle := hfirst.passes (pass_symbol hfirst.inside.ends hleftc hleft hopen)
  have hlist : Resumes (argumentList (expression ops depth)) first (expression ops depth)
      start := by
    refine Resumes.after_ok hopen ?_
    simp only [hsecond, Bool.false_eq_true, if_false]
    exact Resumes.after_ok (rounds_eq middle) (h.resumes hmiddle (Nat.lt_succ_self _) [])
  have happlication : Resumes (application (expression ops depth)) r (expression ops depth)
      start := by
    refine Resumes.after_ok hname ?_
    simp only [hleft, if_true]
    exact hlist.bind fun _ => fetch_advances.bind fun _ => .pure _
  refine Resumes.after_ok (current_of_some hc) ?_
  simp only [ht]
  exact happlication.bind fun _ => .pure _

theorem primary_resumes_parenthesized {left : Token} (hc : r.current = some left)
    (hleft : left.isSymbol "(" = true) (hfetch : fetch r = .ok t start) :
    Resumes (primary ops (depth + 1)) r (expression ops depth) start := by
  refine Resumes.after_ok (current_of_some hc) ?_
  simp only [Token.kind_of_isSymbol hleft, hleft, if_true]
  refine Resumes.after_ok hfetch ?_
  exact Resumes.of_bind fun _ => (require_advances _ _).bind fun _ =>
    fetch_advances.bind fun _ => .pure _

/-- An activation does what it calls, and then moves forward. -/
theorem Calls.resumes {a b : Activation} (h : Calls ops depth a b) (hr : a.reader.Standing) :
    Resumes (a.production.step ops (depth + 1)) a.reader (b.production.step ops depth)
      b.reader := by
  obtain ⟨_, hclimb, _⟩ := productions_advance ops depth
  cases h with
  | operand r => exact Resumes.of_bind fun lhs => hclimb 0 lhs
  | chain h => exact Resumes.after_ok h (Resumes.whole _ _)
  | nextOperand h hc hp hle hfetch =>
    exact climb_resumes h hr fun fuel => nextOperand_resumes hc hp hle hfetch
  | tighter h hc hp hle hfetch hoperand hn hlt =>
    exact climb_resumes h hr fun fuel => tighter_resumes hc hp hle hfetch hoperand hn hlt
  | parenthesized hc hleft hfetch => exact primary_resumes_parenthesized hc hleft hfetch
  | argument hc ht hname hleft hopen hsecond h =>
    exact primary_resumes_argument hr hc ht hname hleft hopen hsecond h

end Resuming

end ScalarLang.Parse
