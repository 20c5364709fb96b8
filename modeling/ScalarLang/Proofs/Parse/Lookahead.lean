import ScalarLang.Proofs.Parse.Alike
import ScalarLang.Proofs.Parse.Rows

/-!
# One token of lookahead

A step that stops with items still ahead has looked at none of them. With other items in their place
it does the same, so whether a form is rejected at a token depends on the tokens up to that one.
The loops are the reason why this is not plain from the code: how often they may go round is taken
from the number of items ahead.
-/
namespace ScalarLang

/-- The reader with other items in place of its last `k`. -/
def Reader.refill (k : Nat) (beyond : List Lexeme) (r : Reader) : Reader :=
  { r with ahead := r.ahead.take (r.ahead.length - k) ++ beyond }

namespace Reader

variable {k : Nat} {beyond rest : List Lexeme} {r after : Reader} {ts : List Token}

theorem refill_ahead_cons {lexeme : Lexeme} (ha : r.ahead = lexeme :: rest)
    (hle : k ≤ rest.length) :
    (r.refill k beyond).ahead = lexeme :: (rest.take (rest.length - k) ++ beyond) := by
  have hlength : (lexeme :: rest).length - k = (rest.length - k) + 1 := by
    rw [List.length_cons]
    omega
  change r.ahead.take (r.ahead.length - k) ++ beyond = _
  rw [ha, hlength, List.take_succ_cons, List.cons_append]

theorem refill_all (beyond : List Lexeme) (r : Reader) :
    r.refill r.ahead.length beyond = { r with ahead := beyond } := by
  rw [refill, Nat.sub_self, List.take_zero, List.nil_append]

theorem Passes.refill (hp : r.Passes ts after) (hle : k ≤ after.ahead.length) :
    (r.refill k beyond).Passes ts (after.refill k beyond) := by
  induction hp with
  | nil r => exact .nil _
  | @cons r after t next notes rest ts hc ha h ih =>
    have hrest : k ≤ rest.length := by
      have hlength : after.ahead.length + ts.length = rest.length := h.length_ahead
      omega
    exact .cons hc (refill_ahead_cons ha hrest) (ih hle)

/-- What lies beyond the tokens that are passed does not matter. -/
theorem Passes.instead (hp : r.Passes ts after) (beyond : List Lexeme) :
    (r.refill after.ahead.length beyond).Passes ts { after with ahead := beyond } := by
  rw [← after.refill_all]
  exact hp.refill (le_refl _)

theorem Stops.length_le {failure : Failure} (h : r.Stops ts failure after) :
    after.ahead.length ≤ r.ahead.length := by
  cases h with
  | token hp _ =>
    have hlength := hp.length_ahead
    omega
  | @literal ts middle shown notes fault rest hp _ ha =>
    have hlength := hp.length_ahead
    rw [ha, List.length_cons] at hlength
    show rest.length ≤ _
    omega

end Reader

namespace Parse

variable {α β : Type} {k : Nat} {beyond : List Lexeme} {r : Reader}

/-! ### Steps that do not look beyond -/

/-- The reader after a step, whether it failed or not. -/
def left : EStateM.Result Failure Reader α → Reader
  | .ok _ after => after
  | .error _ after => after

/-- The result of a step, with other items in place of the last `k` that are still ahead. -/
def refilled (k : Nat) (beyond : List Lexeme) :
    EStateM.Result Failure Reader α → EStateM.Result Failure Reader α
  | .ok a after => .ok a (after.refill k beyond)
  | .error failure after => .error failure (after.refill k beyond)

theorem Forward.length_le {x : Parse α} (h : Forward x r) :
    (left (x r)).ahead.length ≤ r.ahead.length := by
  cases hstep : x r with
  | ok a after =>
    obtain ⟨ts, hp⟩ := h.ok a after hstep
    have hlength := hp.length_ahead
    show after.ahead.length ≤ _
    omega
  | error failure after =>
    obtain ⟨ts, hstops⟩ := h.error failure after hstep
    exact hstops.length_le

/-- Started at the reader, the first step moves forward. If it stops in front of the last `k` items,
then the second does the same as the first where others stand in their place. -/
structure Local (k : Nat) (beyond : List Lexeme) (x y : Parse α) (r : Reader) : Prop where
  forward : Forward x r
  same : k ≤ (left (x r)).ahead.length → y (r.refill k beyond) = refilled k beyond (x r)

/-- The step never looks beyond the items that it takes. -/
def IsLocal (k : Nat) (beyond : List Lexeme) (x : Parse α) : Prop :=
  ∀ r : Reader, r.Standing → Local k beyond x x r

namespace Local

theorem of_eq {x y x' y' : Parse α} (h : Local k beyond x' y' r) (hx : x r = x' r)
    (hy : y (r.refill k beyond) = y' (r.refill k beyond)) : Local k beyond x y r where
  forward := .of_eq h.forward hx
  same hle := by
    rw [hx] at hle ⊢
    rw [hy]
    exact h.same hle

/-- Among the last items there is nothing to show. -/
theorem of_short {x y : Parse α} (h : Forward x r) (hlt : r.ahead.length < k) :
    Local k beyond x y r where
  forward := h
  same hle := by
    have hshort := h.length_le
    omega

theorem bind {x y : Parse α} {f g : α → Parse β} (hr : r.Standing) (hx : Local k beyond x y r)
    (hf : ∀ a after, x r = .ok a after → after.Standing →
      after.ahead.length ≤ r.ahead.length → Local k beyond (f a) (g a) after) :
    Local k beyond (x >>= f) (y >>= g) r := by
  have hnext : ∀ a after, x r = .ok a after → Local k beyond (f a) (g a) after := by
    intro a after hstep
    obtain ⟨ts, hp⟩ := hx.forward.ok a after hstep
    have hlength := hp.length_ahead
    exact hf a after hstep (hr.passes hp) (by omega)
  constructor
  · exact hx.forward.bind hr fun a after hstep _ => (hnext a after hstep).forward
  · intro hle
    cases hstep : x r with
    | error failure after =>
      rw [step_bind_error hstep] at hle ⊢
      have hy := hx.same (by rw [hstep]; exact hle)
      rw [hstep] at hy
      exact step_bind_error hy
    | ok a middle =>
      rw [step_bind_ok hstep] at hle ⊢
      have hshort := (hnext a middle hstep).forward.length_le
      have hy := hx.same (by rw [hstep]; exact hle.trans hshort)
      rw [hstep] at hy
      rw [step_bind_ok hy]
      exact (hnext a middle hstep).same hle

end Local

namespace IsLocal

theorem pure (a : α) : IsLocal k beyond (Pure.pure a : Parse α) :=
  fun _ _ => ⟨.of_ok rfl, fun _ => rfl⟩

theorem bind {x : Parse α} {f : α → Parse β} (hx : IsLocal k beyond x)
    (hf : ∀ a, IsLocal k beyond (f a)) : IsLocal k beyond (x >>= f) :=
  fun r hr => (hx r hr).bind hr fun a after _ hafter _ => hf a after hafter

theorem map {x : Parse α} {g : α → β} (hx : IsLocal k beyond x) : IsLocal k beyond (g <$> x) := by
  rw [← bind_pure_comp]
  exact hx.bind fun a => .pure (g a)

theorem ite {c : Prop} [Decidable c] {x y : Parse α} (hx : IsLocal k beyond x)
    (hy : IsLocal k beyond y) : IsLocal k beyond (if c then x else y) := by
  split
  · exact hx
  · exact hy

end IsLocal

/-! ### Single steps -/

theorem current_local : IsLocal k beyond current := by
  intro r hr
  obtain ⟨t, ht⟩ := hr.current
  have hrefill : (r.refill k beyond).current = some t := ht
  refine ⟨current_advances r hr, fun _ => ?_⟩
  rw [current_of_some ht, current_of_some hrefill]
  rfl

theorem fail_local (expected : Expectation) : IsLocal k beyond (fail expected : Parse α) := by
  intro r hr
  obtain ⟨t, ht⟩ := hr.current
  have hrefill : (r.refill k beyond).current = some t := ht
  refine ⟨fail_advances expected r hr, fun _ => ?_⟩
  rw [fail_of_some expected ht, fail_of_some expected hrefill]
  rfl

theorem require_local (text : String) (expected : Expectation) :
    IsLocal k beyond (require text expected) :=
  current_local.bind fun _ => .ite (.pure _) (fail_local expected)

/-- Taking an item needs it to be there: at the end of all items this would not hold. -/
theorem fetch_local (hk : 0 < k) : IsLocal k beyond fetch := by
  intro r hr
  refine ⟨fetch_advances r hr, fun hle => ?_⟩
  rcases hr.inside.fetch_cases with ⟨ha, _, hf⟩ | ⟨notes, t, rest, ha, hf⟩ |
    ⟨notes, fault, rest, ha, hf⟩
  · rw [hf] at hle
    have hnone : k ≤ r.ahead.length := hle
    rw [ha, List.length_nil] at hnone
    omega
  · rw [hf] at hle ⊢
    exact fetch_token (Reader.refill_ahead_cons ha hle)
  · rw [hf] at hle ⊢
    exact fetch_malformed (Reader.refill_ahead_cons ha hle)

/-- A loop that fetches in each round needs one round less afterwards. -/
theorem fewer_of_fetch {t : Token} {after : Reader} {fuel : Nat} (hk : 0 < k) (hr : r.Standing)
    (h : fetch r = .ok t after) (hfuel : r.ahead.length < fuel + 1 + k) :
    after.ahead.length < fuel + k := by
  rcases hr.inside.fetch_ok_cases h with ⟨rfl, ha, _⟩ | ⟨notes, rest, ha, rfl⟩
  · rw [ha, List.length_nil]
    omega
  · rw [ha, List.length_cons] at hfuel
    show rest.length < _
    omega

/-- Two readers that differ in their last items give different numbers of rounds, and both are
enough for what lies in front. -/
theorem rounds_local {f g : Nat → Parse α}
    (h : ∀ n m, r.ahead.length < n + k → r.ahead.length < m + k → Local k beyond (f n) (g m) r) :
    Local k beyond (rounds >>= f) (rounds >>= g) r := by
  have hrefill : (r.refill k beyond).ahead.length = r.ahead.length - k + beyond.length := by
    rw [Reader.refill, List.length_append, List.length_take]
    omega
  refine .of_eq (h (r.ahead.length + 1) ((r.refill k beyond).ahead.length + 1) (by omega) ?_) ?_ ?_
  · rw [hrefill]
    omega
  · exact step_bind_ok (rounds_eq r)
  · exact step_bind_ok (rounds_eq (r.refill k beyond))

/-! ### Productions -/

section Productions

variable {ops : OperatorTable} {inner : Parse Expr}

theorem parenthesized_local (hk : 0 < k) (h : IsLocal k beyond inner) :
    IsLocal k beyond (parenthesized inner) :=
  (fetch_local hk).bind fun _ => h.bind fun _ => (require_local _ _).bind fun _ =>
    (fetch_local hk).bind fun _ => .pure _

theorem arguments_local (hk : 0 < k) (h : IsLocal k beyond inner) (fuel fuel' : Nat)
    (done : List Expr) (hr : r.Standing) (hfuel : r.ahead.length < fuel + k)
    (hfuel' : r.ahead.length < fuel' + k) :
    Local k beyond (arguments inner fuel done) (arguments inner fuel' done) r := by
  have hforward : Forward (arguments inner fuel done) r :=
    arguments_advances (fun s hs => (h s hs).forward) fuel done r hr
  induction fuel generalizing fuel' done r with
  | zero => exact .of_short hforward (by omega)
  | succ fuel ih =>
    cases fuel' with
    | zero => exact .of_short hforward (by omega)
    | succ fuel' =>
      refine (h r hr).bind hr fun arg s _ hs hle => ?_
      refine (current_local s hs).bind hs fun t s _ hs hle' => ?_
      split
      · exact IsLocal.pure _ s hs
      · refine (require_local _ _ s hs).bind hs fun _ s _ hs hle'' => ?_
        refine (fetch_local hk s hs).bind hs fun _ after hfetch hafter _ => ?_
        have hn := fewer_of_fetch hk hs hfetch (show s.ahead.length < fuel + 1 + k by omega)
        have hm := fewer_of_fetch hk hs hfetch (show s.ahead.length < fuel' + 1 + k by omega)
        exact ih fuel' _ hafter hn hm
          (arguments_advances (fun s hs => (h s hs).forward) fuel _ after hafter)

theorem argumentList_local (hk : 0 < k) (h : IsLocal k beyond inner) :
    IsLocal k beyond (argumentList inner) := by
  refine (fetch_local hk).bind fun t => .ite (.pure _) fun r hr => ?_
  exact rounds_local fun n m hn hm => arguments_local hk h n m [] hr hn hm

theorem application_local (hk : 0 < k) (h : IsLocal k beyond inner) :
    IsLocal k beyond (application inner) :=
  (fetch_local hk).bind fun _ => .ite
    ((argumentList_local hk h).bind fun _ => (fetch_local hk).bind fun _ => .pure _) (.pure _)

theorem number_local {t : Token} {value : Float} (hk : 0 < k) (hr : r.Standing)
    (hc : r.current = some t) (ht : t.kind = .number value) : Local k beyond number number r := by
  have hrefill : (r.refill k beyond).current = some t := hc
  have hsteps : IsLocal k beyond (fetch >>= fun _ => Pure.pure (Expr.number value t.location)) :=
    (fetch_local hk).bind fun _ => .pure _
  exact .of_eq (hsteps r hr) (number_of_current hc ht) (number_of_current hrefill ht)

theorem rightSide_local {climb : Int → Expr → Parse Expr}
    (h : ∀ least lhs, IsLocal k beyond (climb least lhs)) (precedence : Int) (operand : Expr) :
    IsLocal k beyond (rightSide ops climb precedence operand) :=
  current_local.bind fun _ => .ite (h _ operand) (.pure _)

theorem chain_local (hk : 0 < k) {primary : Parse Expr} {climb : Int → Expr → Parse Expr}
    (hprimary : IsLocal k beyond primary) (hclimb : ∀ least lhs, IsLocal k beyond (climb least lhs))
    (least : Int) (fuel fuel' : Nat) (lhs : Expr) (hr : r.Standing)
    (hfuel : r.ahead.length < fuel + k) (hfuel' : r.ahead.length < fuel' + k) :
    Local k beyond (chain ops primary climb least fuel lhs)
      (chain ops primary climb least fuel' lhs) r := by
  have hadvances : ∀ fuel lhs, Advances (chain ops primary climb least fuel lhs) :=
    chain_advances ops (fun s hs => (hprimary s hs).forward)
      (fun bound lhs s hs => (hclimb bound lhs s hs).forward) least
  induction fuel generalizing fuel' lhs r with
  | zero => exact .of_short (hadvances _ lhs r hr) (by omega)
  | succ fuel ih =>
    cases fuel' with
    | zero => exact .of_short (hadvances _ lhs r hr) (by omega)
    | succ fuel' =>
      refine (current_local r hr).bind hr fun op s _ hs hle => ?_
      dsimp only
      split
      · exact IsLocal.pure _ s hs
      · refine (fetch_local hk s hs).bind hs fun _ after hfetch hafter _ => ?_
        have hn := fewer_of_fetch hk hs hfetch (show s.ahead.length < fuel + 1 + k by omega)
        have hm := fewer_of_fetch hk hs hfetch (show s.ahead.length < fuel' + 1 + k by omega)
        refine (hprimary after hafter).bind hafter fun operand s _ hs hle => ?_
        refine (rightSide_local hclimb _ operand s hs).bind hs fun rhs s _ hs hle' => ?_
        exact ih fuel' _ hs (by omega) (by omega)

theorem primary_local (hk : 0 < k) {depth : Nat} (h : IsLocal k beyond (expression ops depth)) :
    IsLocal k beyond (primary ops (depth + 1)) := by
  intro r hr
  obtain ⟨t, ht⟩ := hr.current
  have hrefill : (r.refill k beyond).current = some t := ht
  have hat : Local k beyond (primaryAt ops depth t) (primaryAt ops depth t) r := by
    unfold primaryAt
    cases hkind : t.kind with
    | identifier name => exact (application_local hk h).bind (fun _ => .pure _) r hr
    | number value => exact number_local hk hr ht hkind
    | _ => exact IsLocal.ite (parenthesized_local hk h) (fail_local _) r hr
  exact .of_eq hat (primary_of_current ht) (primary_of_current hrefill)

theorem productions_local (hk : 0 < k) (ops : OperatorTable) (depth : Nat) :
    IsLocal k beyond (expression ops depth) ∧
      (∀ least lhs, IsLocal k beyond (climb ops depth least lhs)) ∧
      IsLocal k beyond (primary ops depth) := by
  induction depth with
  | zero => exact ⟨fail_local _, fun _ _ => fail_local _, fail_local _⟩
  | succ depth ih =>
    obtain ⟨hexpression, hclimb, hprimary⟩ := ih
    refine ⟨hprimary.bind fun lhs => hclimb 0 lhs, fun least lhs r hr => ?_,
      primary_local hk hexpression⟩
    exact rounds_local fun n m hn hm => chain_local hk hprimary hclimb least n m lhs hr hn hm

end Productions

/-! ### Forms -/

theorem parameters_local (hk : 0 < k) (fuel fuel' : Nat) (done : List String) (hr : r.Standing)
    (hfuel : r.ahead.length < fuel + k) (hfuel' : r.ahead.length < fuel' + k) :
    Local k beyond (parameters fuel done) (parameters fuel' done) r := by
  induction fuel generalizing fuel' done r with
  | zero => exact .of_short (parameters_advances _ done r hr) (by omega)
  | succ fuel ih =>
    cases fuel' with
    | zero => exact .of_short (parameters_advances _ done r hr) (by omega)
    | succ fuel' =>
      refine (fetch_local hk r hr).bind hr fun t after hfetch hafter _ => ?_
      have hn := fewer_of_fetch hk hr hfetch hfuel
      have hm := fewer_of_fetch hk hr hfetch hfuel'
      cases t.kind with
      | identifier name =>
        dsimp only
        split
        · exact fail_local _ after hafter
        · exact ih fuel' _ hafter hn hm
      | _ => exact IsLocal.pure done after hafter

theorem prototype_local (hk : 0 < k) : IsLocal k beyond prototype := by
  refine current_local.bind fun t => ?_
  cases t.kind with
  | identifier name =>
    refine (fetch_local hk).bind fun _ => (require_local _ _).bind fun _ => fun r hr => ?_
    refine rounds_local fun n m hn hm => ?_
    refine (parameters_local hk n m [] hr hn hm).bind hr fun params s _ hs _ => ?_
    exact (require_local _ _).bind (fun _ => (fetch_local hk).bind fun _ => .pure _) s hs
  | _ => exact fail_local _

theorem read_local (hk : 0 < k) (ops : OperatorTable) (depth : Nat) (kind : FormKind) :
    IsLocal k beyond (kind.read ops depth) := by
  have hexpression : IsLocal k beyond (expression ops depth) := (productions_local hk ops depth).1
  cases kind with
  | definition =>
    refine .map ((fetch_local hk).bind fun _ => (prototype_local hk).bind fun _ => ?_)
    exact hexpression.bind fun _ => .pure _
  | external => exact .map ((fetch_local hk).bind fun _ => prototype_local hk)
  | expression => exact .map (current_local.bind fun _ => hexpression.bind fun _ => .pure _)

theorem form_local (hk : 0 < k) (ops : OperatorTable) (depth : Nat) :
    IsLocal k beyond (form? ops depth) := by
  intro r hr
  obtain ⟨t, ht⟩ := hr.current
  have hrefill : (r.refill k beyond).current = some t := ht
  cases hend : t.isEnd with
  | true =>
    have hnone : Local k beyond (pure none : Parse (Option Form)) (pure none) r :=
      IsLocal.pure none r hr
    exact .of_eq hnone (form_end_eq ht hend) (form_end_eq hrefill hend)
  | false =>
    cases hsymbol : t.isSymbol ";" with
    | true =>
      have hnone : IsLocal k beyond (fetch >>= fun _ => (pure none : Parse (Option Form))) :=
        (fetch_local hk).bind fun _ => .pure none
      exact .of_eq (hnone r hr) (form_separator_eq ht hsymbol) (form_separator_eq hrefill hsymbol)
    | false =>
      have hread : IsLocal k beyond (some <$> (FormKind.ofToken t).read ops depth) :=
        (read_local hk ops depth _).map
      exact .of_eq (hread r hr) (form_kind_eq ht hend hsymbol) (form_kind_eq hrefill hend hsymbol)

theorem form_advances (ops : OperatorTable) (depth : Nat) : Advances (form? ops depth) :=
  fun r hr => (@form_local 1 [] Nat.one_pos ops depth r hr).forward

/-- A form that is rejected with items ahead is rejected whatever they are. -/
theorem form_rejected_whatever_follows {ops : OperatorTable} {depth : Nat} {failure : Failure}
    {after : Reader} (hr : r.Standing) (h : form? ops depth r = .error failure after)
    (hahead : after.ahead ≠ []) (beyond : List Lexeme) :
    form? ops depth (r.refill after.ahead.length beyond) =
      .error failure { after with ahead := beyond } := by
  have hk : 0 < after.ahead.length := List.length_pos_of_ne_nil hahead
  have hlocal : Local after.ahead.length beyond (form? ops depth) (form? ops depth) r :=
    form_local hk ops depth r hr
  have hsame := hlocal.same (by rw [h]; exact le_refl _)
  rw [hsame, h, ← Reader.refill_all]
  rfl

end Parse
end ScalarLang
