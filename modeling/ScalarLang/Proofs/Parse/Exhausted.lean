import ScalarLang.Proofs.Parse.Nesting

/-!
# Exhausted budgets

A depth budget is exhausted just where more productions are nested than it has levels.
-/
namespace ScalarLang.Parse

variable {α β : Type} {ops : OperatorTable} {depth : Nat}

/-- A step that never asks for less nesting. -/
def Shallow (step : Parse α) : Prop := ∀ r, ¬ Exhausted (step r)

theorem exhausted_bind {x : Parse α} {f : α → Parse β} {r : Reader}
    (h : Exhausted ((x >>= f) r)) :
    Exhausted (x r) ∨ ∃ a middle, x r = .ok a middle ∧ Exhausted (f a middle) := by
  obtain ⟨t, after, h⟩ := h
  rcases step_bind_eq_error h with hx | ⟨a, middle, ha, hf⟩
  · exact Or.inl ⟨t, after, hx⟩
  · exact Or.inr ⟨a, middle, ha, t, after, hf⟩

namespace Shallow

theorem exhausted_bind {x : Parse α} {f : α → Parse β} {r : Reader} (hx : Shallow x)
    (h : Exhausted ((x >>= f) r)) : ∃ a middle, x r = .ok a middle ∧ Exhausted (f a middle) :=
  (Parse.exhausted_bind h).resolve_left (hx r)

theorem pure (a : α) : Shallow (Pure.pure a : Parse α) := by
  rintro r ⟨t, after, h⟩
  cases h

theorem bind {x : Parse α} {f : α → Parse β} (hx : Shallow x) (hf : ∀ a, Shallow (f a)) :
    Shallow (x >>= f) := by
  intro r h
  obtain ⟨a, middle, _, h⟩ := hx.exhausted_bind h
  exact hf a middle h

theorem known (sought : Aspect) (t : Option Token) : Shallow (Parse.known sought t) := by
  rintro r ⟨u, after, h⟩
  cases t with
  | none => cases h
  | some t => cases h

theorem current : Shallow Parse.current := by
  rintro r ⟨t, after, h⟩
  obtain ⟨token, ahead, ending⟩ := r
  cases token with
  | none => cases h
  | some token => cases h

theorem rounds : Shallow Parse.rounds := by
  rintro r ⟨t, after, h⟩
  cases h

theorem fetch : Shallow Parse.fetch := by
  rintro r ⟨t, after, h⟩
  cases hahead : r.ahead with
  | nil =>
    rw [fetch_nil hahead] at h
    cases h
  | cons lexeme rest =>
    obtain ⟨notes, item⟩ := lexeme
    cases item with
    | token u =>
      rw [fetch_token hahead] at h
      cases h
    | malformed fault =>
      rw [fetch_malformed hahead] at h
      cases h

theorem fail {expected : Expectation} (h : expected ≠ .lessNesting) :
    Shallow (Parse.fail expected : Parse α) := by
  refine current.bind fun t => ?_
  rintro r ⟨u, after, hfail⟩
  cases hfail
  exact h rfl

theorem require {expected : Expectation} (text : String) (h : expected ≠ .lessNesting) :
    Shallow (Parse.require text expected) := by
  refine current.bind fun t => ?_
  split
  · exact .pure ()
  · exact fail h

theorem number : Shallow Parse.number := by
  rintro r ⟨t, after, h⟩
  have hget : (get : Parse Reader) r = .ok r r := rfl
  rw [Parse.number, step_bind_ok hget] at h
  rcases step_bind_eq_error h with h | ⟨u, middle, _, h⟩
  · exact known .meaning _ r ⟨t, after, h⟩
  · rcases step_bind_eq_error h with h | ⟨_, later, _, h⟩
    · exact fetch middle ⟨t, after, h⟩
    · cases hmeaning : u.kind.meaning with
      | _ =>
        rw [hmeaning] at h
        cases h

end Shallow

section Exhausting

variable {least p : Nat} {r start middle later : Reader} {op t : Token}
  {lhs operand rhs : Expr} {b : Activation}

/-- An activation calls one whose budget is exhausted. -/
def Activation.Overruns (ops : OperatorTable) (depth : Nat) (a : Activation) : Prop :=
  ∃ b, Calls ops depth a b ∧ Exhausted (b.run ops depth)

theorem Calls.after_round (hc : r.current = some op) (hp : ops.precedence op = p) (hle : least ≤ p)
    (hfetch : fetch r = .ok t start) (hoperand : primary ops depth start = .ok operand middle)
    (hright : rightSide ops (climb ops depth) p operand middle = .ok rhs later)
    (h : Calls ops depth ⟨.climb least (.binary op.word lhs rhs op.location), later⟩ b) :
    Calls ops depth ⟨.climb least lhs, r⟩ b := by
  cases h with
  | nextOperand h hc' hp' hle' hfetch' =>
    exact .nextOperand (.more hc hp hle hfetch hoperand hright h) hc' hp' hle' hfetch'
  | tighter h hc' hp' hle' hfetch' hoperand' hn hlt =>
    exact .tighter (.more hc hp hle hfetch hoperand hright h) hc' hp' hle' hfetch' hoperand' hn hlt

theorem chain_overruns {fuel : Nat}
    (h : Exhausted (chain ops (primary ops depth) (climb ops depth) least fuel lhs r)) :
    Activation.Overruns ops depth ⟨.climb least lhs, r⟩ := by
  -- A round ends in its operand, in what binds tighter, or is whole and another one follows.
  induction fuel generalizing lhs r with
  | zero => exact absurd h (Shallow.pure lhs r)
  | succ fuel ih =>
    obtain ⟨op, _, hcurrent, hround⟩ := Shallow.current.exhausted_bind h
    obtain ⟨hc, rfl⟩ := current_eq_ok hcurrent
    by_cases hlt : ops.precedence op < (least : Int)
    · simp only [if_pos hlt] at hround
      exact absurd hround (Shallow.pure lhs _)
    · simp only [if_neg hlt] at hround
      obtain ⟨p, hp⟩ := Int.eq_ofNat_of_zero_le (a := ops.precedence op) (by omega)
      have hle : least ≤ p := by omega
      rw [hp] at hround
      obtain ⟨t, start, hfetch, hround⟩ := Shallow.fetch.exhausted_bind hround
      rcases exhausted_bind hround with hoperand | ⟨operand, middle, hoperand, hround⟩
      · exact ⟨⟨.primary, start⟩, .nextOperand (.none lhs _) hc hp hle hfetch, hoperand⟩
      · rcases exhausted_bind hround with hright | ⟨rhs, later, hright, hmore⟩
        · obtain ⟨next, _, hnext, hside⟩ := Shallow.current.exhausted_bind hright
          obtain ⟨hn, rfl⟩ := current_eq_ok hnext
          by_cases htight : (p : Int) < ops.precedence next
          · simp only [if_pos htight] at hside
            exact ⟨⟨.climb (p + 1) operand, _⟩,
              .tighter (.none lhs _) hc hp hle hfetch hoperand hn htight, hside⟩
          · simp only [if_neg htight] at hside
            exact absurd hside (Shallow.pure operand _)
        · obtain ⟨b, hcalls, hb⟩ := ih hmore
          exact ⟨b, hcalls.after_round hc hp hle hfetch hoperand hright, hb⟩

theorem arguments_overruns {fuel : Nat} {done : List Expr}
    (h : Exhausted (arguments (expression ops depth) fuel done r)) :
    ∃ later, Arguments ops depth r later ∧ Exhausted (expression ops depth later) := by
  induction fuel generalizing done r with
  | zero => exact absurd h (Shallow.pure done r)
  | succ fuel ih =>
    rcases exhausted_bind h with harg | ⟨arg, middle, harg, h⟩
    · exact ⟨r, .none r, harg⟩
    · obtain ⟨comma, _, hcurrent, htest⟩ := Shallow.current.exhausted_bind h
      obtain ⟨hc, rfl⟩ := current_eq_ok hcurrent
      split at htest
      · exact absurd htest (Shallow.pure _ _)
      · obtain ⟨⟨⟩, _, hrequire, hround⟩ := (Shallow.require "," (by decide)).exhausted_bind htest
        obtain ⟨rfl, u, hu, hcomma⟩ := require_eq_ok hrequire
        cases hc.symm.trans hu
        obtain ⟨t, start, hfetch, hmore⟩ := Shallow.fetch.exhausted_bind hround
        obtain ⟨later, hargs, hlater⟩ := ih hmore
        exact ⟨later, .more harg hc hcomma hfetch hargs, hlater⟩

theorem parenthesized_overruns {left : Token} (hc : r.current = some left)
    (hleft : left.isSymbol "(" = true)
    (h : Exhausted (parenthesized (expression ops depth) r)) :
    Activation.Overruns ops depth ⟨.primary, r⟩ := by
  obtain ⟨t, start, hfetch, h⟩ := Shallow.fetch.exhausted_bind h
  refine ⟨⟨.expression, start⟩, .parenthesized hc hleft hfetch, ?_⟩
  rcases exhausted_bind h with h | ⟨e, middle, _, h⟩
  · exact h
  · have hrest : Shallow (do require ")" .closingParen; let _ ← fetch; pure e : Parse Expr) :=
      (Shallow.require _ (by decide)).bind fun _ => Shallow.fetch.bind fun _ => .pure e
    exact absurd h (hrest middle)

theorem application_overruns {name : String} (hc : r.current = some t)
    (ht : t.kind = .identifier name)
    (h : Exhausted (application (expression ops depth) r)) :
    Activation.Overruns ops depth ⟨.primary, r⟩ := by
  obtain ⟨left, first, hname, h⟩ := Shallow.fetch.exhausted_bind h
  by_cases hleft : left.isSymbol "(" = true
  · rw [if_pos hleft] at h
    rcases exhausted_bind h with h | ⟨args, middle, _, h⟩
    · obtain ⟨second, start, hopen, h⟩ := Shallow.fetch.exhausted_bind h
      by_cases hsecond : second.isSymbol ")" = true
      · rw [if_pos hsecond] at h
        exact absurd h (Shallow.pure [] _)
      · rw [if_neg hsecond] at h
        obtain ⟨fuel, _, hrounds, h⟩ := Shallow.rounds.exhausted_bind h
        cases hrounds
        obtain ⟨later, hargs, hlater⟩ := arguments_overruns h
        exact ⟨⟨.expression, later⟩, .argument hc ht hname hleft hopen
          (Bool.eq_false_of_not_eq_true hsecond) hargs, hlater⟩
    · have hrest : Shallow (do let _ ← fetch; pure (some args) : Parse (Option (List Expr))) :=
        Shallow.fetch.bind fun _ => .pure _
      exact absurd h (hrest middle)
  · rw [if_neg hleft] at h
    exact absurd h (Shallow.pure none _)

theorem primary_overruns (h : Exhausted (primary ops (depth + 1) r)) :
    Activation.Overruns ops depth ⟨.primary, r⟩ := by
  obtain ⟨t, _, hcurrent, htest⟩ := Shallow.current.exhausted_bind h
  obtain ⟨hc, rfl⟩ := current_eq_ok hcurrent
  cases ht : t.kind with
  | identifier name =>
    simp only [ht] at htest
    rcases exhausted_bind htest with happlication | ⟨args, middle, _, hpure⟩
    · exact application_overruns hc ht happlication
    · exact absurd hpure (Shallow.pure _ middle)
  | number value =>
    simp only [ht] at htest
    exact absurd htest (Shallow.number _)
  | _ =>
    simp only [ht] at htest
    by_cases hleft : t.isSymbol "(" = true
    · rw [if_pos hleft] at htest
      exact parenthesized_overruns hc hleft htest
    · rw [if_neg hleft] at htest
      exact absurd htest (Shallow.fail (by decide) _)

/-- Where a budget is exhausted, it is exhausted in a call. -/
theorem run_overruns {a : Activation} (h : Exhausted (a.run ops (depth + 1))) :
    a.Overruns ops depth := by
  obtain ⟨production, r⟩ := a
  cases production with
  | expression =>
    rcases exhausted_bind h with h | ⟨lhs, middle, hlhs, h⟩
    · exact ⟨⟨.primary, r⟩, .operand r, h⟩
    · exact ⟨⟨.climb 0 lhs, middle⟩, .chain hlhs, h⟩
  | climb least lhs =>
    obtain ⟨fuel, _, hrounds, h⟩ := Shallow.rounds.exhausted_bind h
    cases hrounds
    exact chain_overruns h
  | primary => exact primary_overruns h

theorem run_zero {a : Activation} (hr : a.reader.Standing) : Exhausted (a.run ops 0) := by
  obtain ⟨t, ht⟩ := hr.current
  obtain ⟨production, r⟩ := a
  cases production with
  | _ => exact ⟨t, r, fail_of_some _ ht⟩

/-- A budget is exhausted just where more productions are nested than it has levels. -/
theorem exhausted_iff_nested (hops : ops.Reachable) {a : Activation} (hr : a.reader.Standing) :
    Exhausted (a.run ops depth) ↔
      ∃ path last, Nested ops depth a path last ∧ depth < path.length := by
  constructor
  · intro h
    induction depth generalizing a with
    | zero => exact ⟨[a], a, .last 0 a, Nat.zero_lt_one⟩
    | succ depth ih =>
      obtain ⟨b, hcalls, hb⟩ := run_overruns h
      obtain ⟨path, last, hpath, hlength⟩ := ih (hcalls.standing hops hr) hb
      exact ⟨a :: path, last, .call hcalls hpath, Nat.succ_lt_succ hlength⟩
  · rintro ⟨path, last, hpath, hlength⟩
    induction hpath with
    | last depth a =>
      obtain rfl : depth = 0 := Nat.lt_one_iff.1 hlength
      exact run_zero hr
    | call hcalls _ ih =>
      have hb := ih (hcalls.standing hops hr) (Nat.lt_of_succ_lt_succ hlength)
      exact (hcalls.resumes hr).exhausted hb

end Exhausting

end ScalarLang.Parse
