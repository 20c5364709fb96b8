import ScalarLang.Parse.Form
import ScalarLang.Proofs.Outcome

/-!
# Moves of a reader

What lies between two states of a reader, and what a step gives that takes a depth budget: with
enough of it always the same result, and with less the failure that asks for less nesting.
-/
namespace ScalarLang

/-! ### Tokens that are passed -/

/-- A symbol that stands nowhere. -/
def Token.ofSymbol (text : String) : Token := ⟨.symbol text, text, none⟩

/-- A name that stands nowhere. -/
def Token.ofName (name : String) : Token := ⟨.identifier name, name, none⟩

/-- A reader on a token, in front of others. -/
def Reader.ofTokens (current : Token) (ahead : List Token) : Reader :=
  ⟨some current, ahead.map fun t => ⟨[], .token t⟩, ⟨.eof, "", none⟩⟩

/-- A reader passes tokens: it stands on the first of them, and each of them is followed by a token
that it moves to. -/
inductive Reader.Passes : Reader → List Token → Reader → Prop
  | nil (r : Reader) : Passes r [] r
  | cons {r after : Reader} {t next : Token} {notes : List Note} {rest : List Lexeme}
      {ts : List Token} (hc : r.current = some t) (ha : r.ahead = ⟨notes, .token next⟩ :: rest)
      (h : Passes { r with current := some next, ahead := rest } ts after) :
      Passes r (t :: ts) after

namespace Reader.Passes

variable {r middle after : Reader} {t : Token} {ts us : List Token}

theorem append (hts : r.Passes ts middle) (hus : middle.Passes us after) :
    r.Passes (ts ++ us) after := by
  induction hts with
  | nil r => exact hus
  | cons hc ha _ ih => exact .cons hc ha (ih hus)

theorem split (h : r.Passes (ts ++ us) after) :
    ∃ middle, r.Passes ts middle ∧ middle.Passes us after := by
  induction ts generalizing r with
  | nil => exact ⟨r, .nil r, h⟩
  | cons t ts ih =>
    cases h with
    | cons hc ha h =>
      obtain ⟨middle, hts, hus⟩ := ih h
      exact ⟨middle, .cons hc ha hts, hus⟩

theorem current_eq (h : r.Passes (t :: ts) after) : r.current = some t := by
  cases h with
  | cons hc _ _ => exact hc

theorem fetch_eq (h : r.Passes (t :: ts) after) :
    ∃ next middle, Parse.fetch r = .ok next middle ∧ middle.current = some next ∧
      middle.Passes ts after := by
  cases h with
  | cons _ ha h => exact ⟨_, _, Parse.fetch_token ha, rfl, h⟩

theorem fetch_single (h : r.Passes [t] after) :
    ∃ next, Parse.fetch r = .ok next after ∧ after.current = some next := by
  obtain ⟨next, middle, hfetch, hcurrent, hnil⟩ := h.fetch_eq
  cases hnil
  exact ⟨next, hfetch, hcurrent⟩

theorem length_ahead (h : r.Passes ts after) :
    after.ahead.length + ts.length = r.ahead.length := by
  induction h with
  | nil r => rfl
  | cons hc ha _ ih =>
    rw [ha, List.length_cons, List.length_cons]
    have hrest := ih
    simp only at hrest
    omega

end Reader.Passes

/-! ### Looking at the current token -/

namespace Parse

variable {r : Reader} {t : Token}

theorem current_of_some (h : r.current = some t) : current r = .ok t r := by
  obtain ⟨token, ahead, ending⟩ := r
  change token = _ at h
  subst h
  rfl

theorem rounds_eq (r : Reader) : rounds r = .ok (r.ahead.length + 1) r := rfl

theorem fail_of_some {α : Type} (expected : Expectation) (h : r.current = some t) :
    (fail expected : Parse α) r = .error (.unexpected expected t) r := by
  obtain ⟨token, ahead, ending⟩ := r
  change token = _ at h
  subst h
  rfl

theorem require_of_isSymbol {text : String} (expected : Expectation) (h : r.current = some t)
    (ht : t.isSymbol text = true) : require text expected r = .ok () r := by
  have hcurrent : require text expected r =
      (if t.isSymbol text then pure () else fail expected : Parse Unit) r := by
    rw [require, step_bind_ok (current_of_some h)]
  rw [hcurrent, if_pos ht]
  rfl

/-- On a number, the production of numbers passes it. -/
theorem number_of_current {value : Float} (hc : r.current = some t) (ht : t.kind = .number value) :
    number r = (fetch >>= fun _ => Pure.pure (Expr.number value t.location)) r := by
  obtain ⟨token, ahead, ending⟩ := r
  change token = some t at hc
  subst hc
  obtain ⟨kind, lexeme, location⟩ := t
  change kind = _ at ht
  subst ht
  rfl

/-! ### Steps under a depth budget -/

/-- A step failed because it went deeper than its budget. -/
def Exhausted {α : Type} (result : EStateM.Result Failure Reader α) : Prop :=
  ∃ t after, result = .error (.unexpected .lessNesting t) after

/-- A step that takes a depth budget settles on a result: the budget either suffices for it or is
exhausted, and a larger one suffices too. -/
def Settles {α : Type} (step : Nat → Parse α) (r : Reader) (a : α) (after : Reader) : Prop :=
  ∃ need, ∀ depth, (need ≤ depth → step depth r = .ok a after) ∧
    (depth < need → Exhausted (step depth r))

namespace Settles

variable {α β : Type} {step : Nat → Parse α} {r middle after : Reader} {a : α} {b : β}

theorem of_ok (h : ∀ depth, step depth r = .ok a after) : Settles step r a after :=
  ⟨0, fun depth => ⟨fun _ => h depth, fun hlt => absurd hlt (Nat.not_lt_zero depth)⟩⟩

theorem congr {other : Nat → Parse α} (h : Settles step r a after)
    (heq : ∀ depth, other depth r = step depth r) : Settles other r a after := by
  obtain ⟨need, h⟩ := h
  refine ⟨need, fun depth => ?_⟩
  rw [heq depth]
  exact h depth

theorem bind {next : Nat → α → Parse β} (hstep : Settles step r a middle)
    (hnext : Settles (fun depth => next depth a) middle b after) :
    Settles (fun depth => step depth >>= next depth) r b after := by
  obtain ⟨n, hn⟩ := hstep
  obtain ⟨m, hm⟩ := hnext
  refine ⟨max n m, fun depth => ⟨fun hle => ?_, fun hlt => ?_⟩⟩
  · have hle_n : n ≤ depth := by omega
    have hle_m : m ≤ depth := by omega
    change (step depth >>= next depth) r = _
    rw [step_bind_ok ((hn depth).1 hle_n)]
    exact (hm depth).1 hle_m
  · by_cases hle_n : n ≤ depth
    · have hlt_m : depth < m := by omega
      change Exhausted ((step depth >>= next depth) r)
      rw [step_bind_ok ((hn depth).1 hle_n)]
      exact (hm depth).2 hlt_m
    · obtain ⟨t, stop, hfail⟩ := (hn depth).2 (by omega)
      exact ⟨t, stop, step_bind_error hfail⟩

theorem after_ok {first : Parse α} {next : Nat → α → Parse β} (h : first r = .ok a middle)
    (hnext : Settles (fun depth => next depth a) middle b after) :
    Settles (fun depth => first >>= next depth) r b after :=
  bind (of_ok fun _ => h) hnext

theorem map {g : α → β} (h : Settles step r a after) :
    Settles (fun depth => g <$> step depth) r (g a) after := by
  obtain ⟨need, h⟩ := h
  refine ⟨need, fun depth => ⟨fun hle => step_map_ok ((h depth).1 hle), fun hlt => ?_⟩⟩
  obtain ⟨t, stop, hfail⟩ := (h depth).2 hlt
  exact ⟨t, stop, step_map_error hfail⟩

theorem deeper (hzero : Exhausted (step 0 r))
    (hsucc : Settles (fun depth => step (depth + 1)) r a after) : Settles step r a after := by
  obtain ⟨need, h⟩ := hsucc
  refine ⟨need + 1, fun depth => ?_⟩
  cases depth with
  | zero => exact ⟨fun hle => absurd hle (by omega), fun _ => hzero⟩
  | succ depth =>
    obtain ⟨hle, hlt⟩ := h depth
    exact ⟨fun h => hle (by omega), fun h => hlt (by omega)⟩

theorem unique {a' : α} {after' : Reader} (h : Settles step r a after)
    (h' : Settles step r a' after') : a = a' ∧ after = after' := by
  obtain ⟨n, hn⟩ := h
  obtain ⟨m, hm⟩ := h'
  have heq := ((hn (max n m)).1 (Nat.le_max_left n m)).symm.trans
    ((hm (max n m)).1 (Nat.le_max_right n m))
  cases heq
  exact ⟨rfl, rfl⟩

theorem ok_or_exhausted (h : Settles step r a after) (depth : Nat) :
    step depth r = .ok a after ∨ Exhausted (step depth r) := by
  obtain ⟨need, h⟩ := h
  by_cases hle : need ≤ depth
  · exact Or.inl ((h depth).1 hle)
  · exact Or.inr ((h depth).2 (by omega))

end Settles

end Parse
end ScalarLang
