import ScalarLang.Proofs.Parse.Budget
import ScalarLang.Proofs.Parse.Exhausted
import ScalarLang.Proofs.Parse.Places
import ScalarLang.Proofs.Parse.Precedence

/-!
# How deep productions nest

Every call weighs less than its caller, unless it opens a parenthesis: a chain is only climbed again
for an operator that binds tighter than one of the chain, so there are no more climbs inside each
other than there are precedences. How long the input is does not matter.
-/
namespace ScalarLang

def OperatorTable.levels (ops : OperatorTable) : Finset Nat := (ops.entries.map Prod.snd).toFinset

/-- How many precedences are at least this high. -/
def OperatorTable.levelsFrom (ops : OperatorTable) (least : Nat) : Nat :=
  (ops.levels.filter (least ≤ ·)).card

namespace OperatorTable

variable {ops : OperatorTable} {least p : Nat}

theorem levelsFrom_le (ops : OperatorTable) (least : Nat) :
    ops.levelsFrom least ≤ ops.levels.card :=
  Finset.card_filter_le _ _

theorem mem_levels_of_precedence {t : Token} (h : ops.precedence t = (p : Int)) :
    p ∈ ops.levels := by
  have hjoins : ops.Joins t := joins_of_precedence (by omega)
  obtain ⟨text, hkind, hhas⟩ := hjoins
  rw [precedence, hkind] at h
  rcases precedenceOf_cases ops text with ⟨_, c, q, _, hq, hprecedence⟩ | ⟨hno, _⟩
  · have heq : q = p := by
      simp only [hprecedence] at h
      exact Int.ofNat_inj.1 h
    obtain ⟨front, back, hentries, _⟩ := List.lookup_eq_some_iff.1 hq
    rw [levels, List.mem_toFinset, hentries]
    exact List.mem_map.2 ⟨(c, q), by simp, heq⟩
  · rw [hhas] at hno
    cases hno

/-- Above a precedence of the table there is one less. -/
theorem levelsFrom_succ_lt (hp : p ∈ ops.levels) (hle : least ≤ p) :
    ops.levelsFrom (p + 1) < ops.levelsFrom least := by
  refine Finset.card_lt_card (Finset.ssubset_iff_of_subset ?_ |>.2 ⟨p, ?_, ?_⟩)
  · intro q hq
    rw [Finset.mem_filter] at hq ⊢
    exact ⟨hq.1, by omega⟩
  · exact Finset.mem_filter.2 ⟨hp, hle⟩
  · rw [Finset.mem_filter]
    omega

end OperatorTable

namespace Parse

variable {ops : OperatorTable} {depth : Nat} {a b last : Activation} {path : List Activation}

/-! ### Along a row of calls -/

/-- The productions that can be nested in one without another parenthesis, itself included. -/
def Production.height (ops : OperatorTable) : Production → Nat
  | expression => ops.levels.card + 3
  | climb least _ => ops.levelsFrom least + 2
  | primary => 1

/-- The climbs that can be nested in a production without another parenthesis, itself included. -/
def Production.climbs (ops : OperatorTable) : Production → Nat
  | expression => ops.levels.card + 1
  | climb least _ => ops.levelsFrom least + 1
  | primary => 0

def Production.isClimb : Production → Bool
  | climb _ _ => true
  | _ => false

theorem Calls.height (h : Calls ops depth a b) :
    b.production.height ops + 1 ≤
      a.production.height ops + (ops.levels.card + 3) * a.production.opens := by
  cases h with
  | operand r => simp only [Production.height, Production.opens]; omega
  | chain h =>
    have hle := ops.levelsFrom_le 0
    simp only [Production.height, Production.opens]
    omega
  | nextOperand => simp only [Production.height, Production.opens]; omega
  | tighter _ _ hp hle _ _ _ _ =>
    have hlt := OperatorTable.levelsFrom_succ_lt (OperatorTable.mem_levels_of_precedence hp) hle
    simp only [Production.height, Production.opens]
    omega
  | parenthesized | argument => simp only [Production.height, Production.opens]; omega

theorem Calls.climbs (h : Calls ops depth a b) :
    b.production.climbs ops + a.production.isClimb.toNat ≤
      a.production.climbs ops + (ops.levels.card + 1) * a.production.opens := by
  cases h with
  | operand r => simp [Production.climbs, Production.isClimb]
  | chain h =>
    have hle := ops.levelsFrom_le 0
    simp only [Production.climbs, Production.isClimb, Production.opens, Bool.toNat_false]
    omega
  | nextOperand => simp [Production.climbs, Production.isClimb, Production.opens]
  | tighter _ _ hp hle _ _ _ _ =>
    have hlt := OperatorTable.levelsFrom_succ_lt (OperatorTable.mem_levels_of_precedence hp) hle
    simp only [Production.climbs, Production.isClimb, Production.opens, Bool.toNat_true]
    omega
  | parenthesized | argument => simp [Production.climbs, Production.isClimb, Production.opens]

/-- Where no call costs more than it takes from a weight, nor more than `level` for a parenthesis,
a row of calls costs no more than the weight of its first one and the parentheses it opens. -/
theorem Nested.cost_le (hops : ops.Reachable) {cost weight : Production → Nat} {level : Nat}
    (hself : ∀ p, cost p ≤ weight p)
    (hcalls : ∀ depth a b, Calls ops depth a b → weight b.production + cost a.production ≤
      weight a.production + level * a.production.opens)
    (h : Nested ops depth a path last) (hr : a.reader.Standing) :
    ∃ n : Nat, Deepens a.reader n last.reader ∧
      (path.map fun b => cost b.production).sum ≤ weight a.production + level * n := by
  induction h with
  | last depth a => exact ⟨0, .refl _, by simpa using hself a.production⟩
  | @call depth a b last path h _ ih =>
    obtain ⟨n, hn, hle⟩ := ih (h.standing hops hr)
    refine ⟨a.production.opens + n, ?_, ?_⟩
    · rw [Nat.cast_add]
      exact (h.deepens hops hr.inside.ends).trans hn
    · have hcall := hcalls depth a b h
      rw [List.map_cons, List.sum_cons, Nat.mul_add]
      omega

/-- A row of calls costs no more where fewer parentheses are open. -/
theorem Nested.cost_le_deepest (hops : ops.Reachable) {cost weight : Production → Nat} {level : Nat}
    (hself : ∀ p, cost p ≤ weight p)
    (hcalls : ∀ depth a b, Calls ops depth a b → weight b.production + cost a.production ≤
      weight a.production + level * a.production.opens)
    (h : Nested ops depth a path last) (hr : a.reader.Standing) :
    ∃ ts, a.reader.Passes ts last.reader ∧
      (path.map fun b => cost b.production).sum ≤ weight a.production + level * deepest ts := by
  obtain ⟨n, ⟨ts, hts, hn⟩, hle⟩ := h.cost_le hops hself hcalls hr
  have hdeep := opened_le_deepest ts
  have hmul : level * n ≤ level * deepest ts := Nat.mul_le_mul_left level (by omega)
  exact ⟨ts, hts, by omega⟩

theorem Nested.length_le_deepest (hops : ops.Reachable) (h : Nested ops depth a path last)
    (hr : a.reader.Standing) :
    ∃ ts, a.reader.Passes ts last.reader ∧
      path.length ≤ a.production.height ops + (ops.levels.card + 3) * deepest ts := by
  have hself : ∀ p : Production, 1 ≤ p.height ops := by
    intro p
    cases p with
    | _ => simp [Production.height]
  obtain ⟨ts, hts, hle⟩ := @Nested.cost_le_deepest _ _ _ _ _ hops (fun _ => 1) _ _ hself
    (fun _ _ _ hcall => hcall.height) h hr
  refine ⟨ts, hts, ?_⟩
  simpa using hle

theorem countP_eq_sum {α : Type} (p : α → Bool) (xs : List α) :
    xs.countP p = (xs.map fun x => (p x).toNat).sum := by
  induction xs with
  | nil => rfl
  | cons x xs ih => cases h : p x <;> simp [h, ih, Nat.add_comm]

theorem Nested.climbs_le_deepest (hops : ops.Reachable) (h : Nested ops depth a path last)
    (hr : a.reader.Standing) :
    ∃ ts, a.reader.Passes ts last.reader ∧
      path.countP (fun b => b.production.isClimb) ≤
        a.production.climbs ops + (ops.levels.card + 1) * deepest ts := by
  have hself : ∀ p : Production, p.isClimb.toNat ≤ p.climbs ops := by
    intro p
    cases p with
    | _ => simp [Production.climbs, Production.isClimb]
  obtain ⟨ts, hts, hle⟩ := @Nested.cost_le_deepest _ _ _ _ _ hops
    (fun p => p.isClimb.toNat) _ _ hself (fun _ _ _ hcall => hcall.climbs) h hr
  rw [← countP_eq_sum] at hle
  exact ⟨ts, hts, hle⟩

/-! ### Larger budgets -/

theorem Approximates.ok {α : Type} {x y : Parse α} (h : Approximates x y) {r after : Reader}
    {v : α} (hx : x r = .ok v after) : y r = .ok v after := by
  have hopen : ¬ Exhausted (x r) := by
    rintro ⟨t, stop, hfail⟩
    cases hx.symm.trans hfail
  exact (h r hopen).trans hx

section Larger

variable {larger least : Nat} {r after : Reader} {lhs lhs' : Expr}

theorem Rounds.mono (hle : depth ≤ larger) (h : Rounds ops depth least lhs r lhs' after) :
    Rounds ops larger least lhs r lhs' after := by
  obtain ⟨_, hclimb, hprimary⟩ := @productions_approximate ops ops (fun _ => rfl) _ _ hle
  induction h with
  | none lhs r => exact .none lhs r
  | @more lhs lhs' operand rhs r start middle later after op t p hc hp hleast hfetch hoperand
      hright _ ih =>
    have hside : Approximates (rightSide ops (climb ops depth) p operand)
        (rightSide ops (climb ops larger) p operand) :=
      (Approximates.refl current).bind fun t => .ite (hclimb _ operand) (.refl _)
    exact .more hc hp hleast hfetch (hprimary.ok hoperand) (hside.ok hright) ih

theorem Arguments.mono (hle : depth ≤ larger) (h : Arguments ops depth r after) :
    Arguments ops larger r after := by
  have hexpression := (@productions_approximate ops ops (fun _ => rfl) _ _ hle).1
  induction h with
  | none r => exact .none r
  | more harg hc hcomma hfetch _ ih => exact .more (hexpression.ok harg) hc hcomma hfetch ih

theorem Calls.mono (hle : depth ≤ larger) (h : Calls ops depth a b) : Calls ops larger a b := by
  have hprimary := (@productions_approximate ops ops (fun _ => rfl) _ _ hle).2.2
  cases h with
  | operand r => exact .operand r
  | chain h => exact .chain (hprimary.ok h)
  | nextOperand h hc hp hleast hfetch => exact .nextOperand (h.mono hle) hc hp hleast hfetch
  | tighter h hc hp hleast hfetch hoperand hn hlt =>
    exact .tighter (h.mono hle) hc hp hleast hfetch (hprimary.ok hoperand) hn hlt
  | parenthesized hc hleft hfetch => exact .parenthesized hc hleft hfetch
  | argument hc ht hname hleft hopen hsecond h =>
    exact .argument hc ht hname hleft hopen hsecond (h.mono hle)

theorem Nested.mono (hle : depth ≤ larger) (h : Nested ops depth a path last) :
    Nested ops larger a path last := by
  induction h generalizing larger with
  | last depth a => exact .last larger a
  | call h _ ih =>
    obtain ⟨larger, rfl⟩ : ∃ k, larger = k + 1 := ⟨larger - 1, by omega⟩
    have hle' := Nat.le_of_succ_le_succ hle
    exact .call (h.mono hle') (ih hle')

/-- What an activation ends behind is ahead of everything nested in it. -/
theorem Nested.passes (hops : ops.Reachable) (h : Nested ops depth a path last)
    (hr : a.reader.Standing) {e : Expr} (hrun : a.run ops depth = .ok e after) :
    ∃ ts, last.reader.Passes ts after := by
  induction h generalizing e after with
  | last depth a => exact (step_advances ops depth a.production a.reader hr).ok e after hrun
  | @call depth a b last path h _ ih =>
    have hstart := h.standing hops hr
    obtain ⟨e', middle, ts, hb, hts⟩ :=
      (h.resumes hr).returns hstart (step_advances ops depth b.production) hrun
    obtain ⟨us, hus⟩ := ih hstart hb
    exact ⟨us ++ ts, hus.append hts⟩

end Larger

/-! ### Expressions -/

section Expressions

variable {r after : Reader} {e first : Expr} {t next : Token} {ts us : List Token}
  {links : List Link}

theorem deepest_le_of_reading (hops : ops.Reachable) (hr : r.Standing)
    (hread : Reading ops (.expression e) ts) (hp : r.PassesTo ts next after)
    (hno : ¬ ops.Joins next) (h : Nested ops depth ⟨.expression, r⟩ path last)
    (hus : r.Passes us last.reader) : deepest us ≤ deepest ts := by
  -- With enough of a budget the same productions are nested, and the expression is read.
  obtain ⟨need, hneed⟩ := phraseSettles_of_reading hops hread r next after hp hno
  have hrun := (hneed (max need depth)).1 (le_max_left need depth)
  obtain ⟨vs, hvs⟩ := (h.mono (le_max_right need depth)).passes hops hr hrun
  rw [hp.passes.unique (hus.append hvs)]
  exact deepest_le_append us vs

theorem expression_eq_ok (hops : ops.Reachable) (hr : r.Standing)
    (hread : Reading ops (.expression e) ts) (hp : r.PassesTo ts next after)
    (hno : ¬ ops.Joins next)
    (hnested : ∀ path last, Nested ops depth ⟨.expression, r⟩ path last → path.length ≤ depth) :
    expression ops depth r = .ok e after := by
  rcases (phraseSettles_of_reading hops hread r next after hp hno).ok_or_exhausted depth with
    hok | hexhausted
  · exact hok
  · obtain ⟨path, last, hpath, hlt⟩ := (exhausted_iff_nested (a := ⟨.expression, r⟩) hops hr).1
      hexhausted
    exact absurd hlt (not_lt.2 (hnested path last hpath))

theorem openedBy_of_reading (h : Reading ops (.operand e) [t]) : openedBy t = 0 := by
  generalize hts : [t] = ts at h
  cases h with
  | number h | name h =>
    cases hts
    exact openedBy_of_kind (by simp [h])
  | call => cases hts
  | parenthesized => simp at hts

theorem deepest_flat (hops : ops.Reachable) (hfirst : Reading ops (.operand first) [t])
    (hjoins : ∀ link ∈ links, ops.Joins link.op)
    (hlinks : ∀ link ∈ links, ∃ u, link.tokens = [u] ∧ Reading ops (.operand link.operand) [u]) :
    deepest ([t] ++ links.flatMap Link.written) = 0 := by
  refine deepest_eq_zero fun u hu => ?_
  rcases List.mem_append.1 hu with hu | hu
  · rw [List.mem_singleton.1 hu, openedBy_of_reading hfirst]
  · obtain ⟨link, hlink, hu⟩ := List.mem_flatMap.1 hu
    obtain ⟨v, hv, hread⟩ := hlinks link hlink
    rw [Link.written, hv] at hu
    rcases List.mem_cons.1 hu with rfl | hu
    · exact openedBy_of_joins hops (hjoins link hlink)
    · rw [List.mem_singleton.1 hu, openedBy_of_reading hread]

/-- How deep productions nest. A budget is exhausted just where more productions are nested than it
has levels. How many are nested is bounded by the number of precedences and the parentheses that are
open, in every input and in the tokens of a whole expression, which is read under any budget that
admits as many. In a chain of names and numbers there is at most one climb more than there are
precedences, so the chain is read under any budget with room for these, the expression and an
operand. -/
theorem nesting_is_bounded (hops : ops.Reachable) (hr : r.Standing) :
    (∀ depth, Exhausted (expression ops depth r) ↔
      ∃ path last, Nested ops depth ⟨.expression, r⟩ path last ∧ depth < path.length) ∧
    (∀ depth path last, Nested ops depth ⟨.expression, r⟩ path last →
      ∃ ts, r.Passes ts last.reader ∧ path.length ≤ (deepest ts + 1) * (ops.levels.card + 3)) ∧
    (∀ e ts next after, Reading ops (.expression e) ts → r.PassesTo ts next after →
      ¬ ops.Joins next →
      (∀ depth path last, Nested ops depth ⟨.expression, r⟩ path last →
        path.length ≤ (deepest ts + 1) * (ops.levels.card + 3)) ∧
      ∀ depth, (deepest ts + 1) * (ops.levels.card + 3) ≤ depth →
        expression ops depth r = .ok e after) ∧
    ∀ first t links next after, Reading ops (.operand first) [t] →
      (∀ link ∈ links, ops.Joins link.op) →
      (∀ link ∈ links, ∃ u, link.tokens = [u] ∧ Reading ops (.operand link.operand) [u]) →
      r.PassesTo ([t] ++ links.flatMap Link.written) next after → ¬ ops.Joins next →
      (∀ depth path last, Nested ops depth ⟨.expression, r⟩ path last →
        path.countP (fun a => a.production.isClimb) ≤ ops.levels.card + 1 ∧
          path.length ≤ ops.levels.card + 3) ∧
      ∀ depth, ops.levels.card + 3 ≤ depth →
        expression ops depth r = .ok (group ops first links) after := by
  have hpassed : ∀ depth path last, Nested ops depth ⟨.expression, r⟩ path last →
      ∃ ts, r.Passes ts last.reader ∧
        path.length ≤ (deepest ts + 1) * (ops.levels.card + 3) := by
    intro depth path last h
    obtain ⟨ts, hts, hle⟩ := h.length_le_deepest hops hr
    refine ⟨ts, hts, hle.trans (le_of_eq ?_)⟩
    simp only [Production.height]
    ring
  have hwhole : ∀ e ts next after, Reading ops (.expression e) ts → r.PassesTo ts next after →
      ¬ ops.Joins next → ∀ depth path last, Nested ops depth ⟨.expression, r⟩ path last →
        path.length ≤ (deepest ts + 1) * (ops.levels.card + 3) := by
    intro e ts next after hread hp hno depth path last h
    obtain ⟨us, hus, hle⟩ := hpassed depth path last h
    have hdeep := deepest_le_of_reading hops hr hread hp hno h hus
    exact hle.trans (Nat.mul_le_mul_right _ (Nat.succ_le_succ hdeep))
  refine ⟨fun depth => exhausted_iff_nested (a := ⟨.expression, r⟩) hops hr, hpassed,
    fun e ts next after hread hp hno => ⟨hwhole e ts next after hread hp hno, ?_⟩,
    fun first t links next after hfirst hjoins hlinks hp hno => ?_⟩
  · intro depth hdepth
    exact expression_eq_ok hops hr hread hp hno fun path last h =>
      (hwhole e ts next after hread hp hno depth path last h).trans hdepth
  · have hoperands : ∀ link ∈ links, Reading ops (.operand link.operand) link.tokens := by
      intro link hlink
      obtain ⟨u, hu, hread⟩ := hlinks link hlink
      rw [hu]
      exact hread
    have hread := Reading.chain hfirst hjoins hoperands
    have hflat := deepest_flat hops hfirst hjoins hlinks
    have hlength := hwhole _ _ next after hread hp hno
    rw [hflat, Nat.zero_add, Nat.one_mul] at hlength
    refine ⟨fun depth path last h => ⟨?_, hlength depth path last h⟩, fun depth hdepth =>
      expression_eq_ok hops hr hread hp hno fun path last h =>
        (hlength depth path last h).trans hdepth⟩
    obtain ⟨us, hus, hle⟩ := h.climbs_le_deepest hops hr
    have hdeep := deepest_le_of_reading hops hr hread hp hno h hus
    rw [hflat, Nat.le_zero] at hdeep
    rw [hdeep] at hle
    exact hle

/-- The end of a row of tokens that stand nowhere. -/
def endToken : Token := ⟨.eof, "", none⟩

theorem standing_ofTokens (hends : ∀ u ∈ t :: ts, u.isEnd = false)
    (hwords : ∀ u ∈ t :: ts, ∀ name, u.kind = .identifier name → IsWord name) :
    (Reader.ofTokens t (ts ++ [endToken])).Standing := by
  have holds : ∀ u, (Reader.ofTokens t (ts ++ [endToken])).Holds u →
      u ∈ t :: ts ∨ u = endToken := by
    rintro u (hu | ⟨notes, hu⟩)
    · cases hu
      exact Or.inl (List.mem_cons_self ..)
    · obtain ⟨v, hv, heq⟩ := List.mem_map.1 hu
      cases heq
      rcases List.mem_append.1 hv with hv | hv
      · exact Or.inl (List.mem_cons_of_mem _ hv)
      · exact Or.inr (List.mem_singleton.1 hv)
  obtain ⟨ht, hts⟩ := List.forall_mem_cons.1 hends
  refine ⟨⟨?_, fun u hu hend => ?_, fun u name hu hkind => ?_⟩, t, rfl⟩
  · have hahead : EndsOnce ((ts ++ [endToken]).map fun u => ⟨[], .token u⟩) := by
      clear hends hwords holds
      induction ts with
      | nil => rfl
      | cons u ts ih =>
        obtain ⟨hu, hrest⟩ := List.forall_mem_cons.1 hts
        rw [List.cons_append, List.map_cons, EndsOnce, Item.isEnd, hu]
        exact ih hrest
    unfold Reader.Ends
    simp only [Reader.ofTokens, ht]
    exact hahead
  · rcases holds u hu with hmem | rfl
    · rw [hends u hmem] at hend
      cases hend
    · rfl
  · rcases holds u hu with hmem | rfl
    · exact hwords u hmem name hkind
    · cases hkind

/-- The chain `a < b + c` with three precedences at hand. -/
theorem nesting_is_bounded_rising :
    ∃ r after : Reader, r.Standing ∧
      (∀ depth path last, Nested .standard depth ⟨.expression, r⟩ path last →
        path.countP (fun a => a.production.isClimb) ≤ 4 ∧ path.length ≤ 6) ∧
      expression .standard 6 r = .ok (.binary "<" (.var "a" none)
        (.binary "+" (.var "b" none) (.var "c" none) none) none) after := by
  let links : List Link := [⟨.ofSymbol "<", .var "b" none, [.ofName "b"]⟩,
    ⟨.ofSymbol "+", .var "c" none, [.ofName "c"]⟩]
  have hjoins : ∀ link ∈ links, OperatorTable.standard.Joins link.op := by
    intro link hlink
    refine OperatorTable.joins_of_precedence ?_
    revert link
    decide
  have hlinks : ∀ link ∈ links, ∃ u, link.tokens = [u] ∧
      Reading .standard (.operand link.operand) [u] := by
    intro link hlink
    simp only [links, List.mem_cons, List.not_mem_nil, or_false] at hlink
    rcases hlink with rfl | rfl
    all_goals exact ⟨_, rfl, reading_ofName _ _⟩
  have hstanding : (Reader.ofTokens (.ofName "a") ([.ofSymbol "<", .ofName "b", .ofSymbol "+",
      .ofName "c"] ++ [endToken])).Standing :=
    standing_ofTokens (by decide) (by simp [Token.ofName, Token.ofSymbol, IsWord])
  have hpasses : (Reader.ofTokens (.ofName "a") ([.ofSymbol "<", .ofName "b", .ofSymbol "+",
      .ofName "c"] ++ [endToken])).Passes ([.ofName "a"] ++ links.flatMap Link.written)
      (Reader.ofTokens endToken []) :=
    .cons rfl rfl (.cons rfl rfl (.cons rfl rfl (.cons rfl rfl (.cons rfl rfl (.nil _)))))
  have hno : ¬ OperatorTable.standard.Joins endToken := by
    rintro ⟨text, hkind, _⟩
    cases hkind
  obtain ⟨_, _, _, hflat⟩ := nesting_is_bounded .standard hstanding
  obtain ⟨hnested, hread⟩ := hflat (.var "a" none) (.ofName "a") links endToken
    (Reader.ofTokens endToken []) (reading_ofName _ _) hjoins hlinks
    ⟨hpasses, rfl, fun _ => rfl⟩ hno
  have hcard : OperatorTable.standard.levels.card = 3 := by decide
  have hgroup : group .standard (.var "a" none) links = .binary "<" (.var "a" none)
      (.binary "+" (.var "b" none) (.var "c" none) none) none := by cbv
  rw [hcard] at hnested hread
  rw [hgroup] at hread
  exact ⟨_, _, hstanding, hnested, hread 6 (le_refl 6)⟩

end Expressions

end Parse
end ScalarLang
