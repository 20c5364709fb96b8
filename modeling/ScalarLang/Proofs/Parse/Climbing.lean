import Mathlib.Data.List.TakeWhile
import ScalarLang.Proofs.Operator.Installed
import ScalarLang.Proofs.Parse.Grouping
import ScalarLang.Proofs.Parse.Moves

/-!
# Precedence climbing

Climbing goes along a chain of operands as far as the operators bind tightly enough, and gives the
tree of that part of the chain.
-/
namespace ScalarLang

/-- Whether the operator of a link binds at least as tightly as `least`. -/
def Link.reaches (ops : OperatorTable) (least : Int) (link : Link) : Bool :=
  decide (least ≤ link.rank ops)

namespace Parse

/-- A reader goes along the links of a chain: past the operator of each, and past an operand that
is read there. -/
inductive Follows (ops : OperatorTable) : List Link → Reader → Reader → Prop
  | nil (r : Reader) : Follows ops [] r r
  | cons {link : Link} {rest : List Link} {r start middle after : Reader}
      (hop : ops.Joins link.op) (hfetch : r.Passes [link.op] start)
      (htokens : start.Passes link.tokens middle)
      (hoperand : Settles (primary ops) start link.operand middle)
      (h : Follows ops rest middle after) : Follows ops (link :: rest) r after

namespace Follows

variable {ops : OperatorTable} {links left right : List Link} {r after : Reader}

theorem passes (h : Follows ops links r after) : r.Passes (links.flatMap Link.written) after := by
  induction h with
  | nil r => exact .nil r
  | cons _ hfetch htokens _ _ ih => exact (hfetch.append htokens).append ih

theorem length_le (h : Follows ops links r after) :
    links.length + after.ahead.length ≤ r.ahead.length := by
  induction h with
  | nil r => simp
  | cons _ hfetch htokens _ _ ih =>
    have hop := hfetch.length_ahead
    have htokens := htokens.length_ahead
    simp only [List.length_cons, List.length_nil] at hop ⊢
    omega

theorem append {middle : Reader} (hleft : Follows ops left r middle)
    (hright : Follows ops right middle after) : Follows ops (left ++ right) r after := by
  induction hleft with
  | nil r => exact hright
  | cons hop hfetch htokens hoperand _ ih => exact .cons hop hfetch htokens hoperand (ih hright)

theorem joins (h : Follows ops links r after) : ∀ link ∈ links, ops.Joins link.op := by
  induction h with
  | nil r => simp
  | cons hop _ _ _ _ ih =>
    intro link hlink
    rcases List.mem_cons.1 hlink with rfl | hlink
    · exact hop
    · exact ih link hlink

end Follows

/-! ### One round -/

section Rounds

variable {ops : OperatorTable} {r start middle after : Reader} {op next : Token}
  {operand lhs rhs e : Expr} {least : Int} {fuel : Nat}

theorem chain_stops (h : r.current = some op) (hlt : ops.precedence op < least) (depth : Nat) :
    chain ops (primary ops depth) (climb ops depth) least (fuel + 1) lhs r = .ok lhs r := by
  rw [chain, step_bind_ok (current_of_some h)]
  simp only [if_pos hlt]
  rfl

theorem rightSide_of_tighter (h : middle.current = some next)
    (hlt : ops.precedence op < ops.precedence next)
    (hclimb : Settles (fun depth => climb ops depth (ops.precedence op + 1) operand) middle rhs
      after) :
    Settles (fun depth => rightSide ops (climb ops depth) (ops.precedence op) operand) middle rhs
      after := by
  refine hclimb.congr fun depth => ?_
  rw [rightSide, step_bind_ok (current_of_some h), if_pos hlt]

theorem rightSide_of_looser (h : middle.current = some next)
    (hge : ops.precedence next ≤ ops.precedence op) :
    Settles (fun depth => rightSide ops (climb ops depth) (ops.precedence op) operand) middle
      operand middle := by
  refine Settles.of_ok fun depth => ?_
  rw [rightSide, step_bind_ok (current_of_some h), if_neg (not_lt.2 hge)]
  rfl

theorem chain_goes_on {later : Reader} (hge : least ≤ ops.precedence op)
    (hfetch : r.Passes [op] start) (hoperand : Settles (primary ops) start operand middle)
    (hrhs : Settles (fun depth => rightSide ops (climb ops depth) (ops.precedence op) operand)
      middle rhs later)
    (hrest : Settles (fun depth => chain ops (primary ops depth) (climb ops depth) least fuel
      (.binary op.word lhs rhs op.location)) later e after) :
    Settles (fun depth => chain ops (primary ops depth) (climb ops depth) least (fuel + 1) lhs)
      r e after := by
  obtain ⟨_, hstart, _⟩ := hfetch.fetch_single
  have hround : Settles (fun depth => do
      let _ ← fetch
      let rhs ← rightSide ops (climb ops depth) (ops.precedence op) (← primary ops depth)
      chain ops (primary ops depth) (climb ops depth) least fuel
        (.binary op.word lhs rhs op.location)) r e after := by
    refine Settles.after_ok hstart ?_
    refine hoperand.bind ?_
    refine hrhs.bind ?_
    exact hrest
  refine hround.congr fun depth => ?_
  rw [chain, step_bind_ok (current_of_some hfetch.current_eq)]
  simp only [if_neg (not_lt.2 hge)]

theorem climb_settles_of_chain (h : r.current = some op)
    (hchain : Settles (fun depth => chain ops (primary ops depth) (climb ops depth) least
      (r.ahead.length + 1) lhs) r e after) :
    Settles (fun depth => climb ops depth least lhs) r e after := by
  refine Settles.deeper ⟨op, r, ?_⟩ ?_
  · rw [climb]
    exact fail_of_some _ h
  · exact Settles.after_ok (rounds_eq r) hchain

end Rounds

/-! ### Whole chains -/

section Chains

variable {ops : OperatorTable} {links : List Link} {r after : Reader} {term : Token}

/-- A step goes along a chain while the operators bind as tightly as `least`, and gives the tree of
that part. -/
def Climbs (ops : OperatorTable) (least : Int) (first : Expr) (links : List Link)
    (step : Nat → Parse Expr) (r after : Reader) : Prop :=
  ∃ middle, Follows ops (links.takeWhile (Link.reaches ops least)) r middle ∧
    Follows ops (links.dropWhile (Link.reaches ops least)) middle after ∧
    Settles step r (group ops first (links.takeWhile (Link.reaches ops least))) middle

theorem Climbs.of_unreached {least : Int} {first : Expr} {step : Nat → Parse Expr}
    (hlinks : ∀ link ∈ links.head?, link.rank ops < least) (hf : Follows ops links r after)
    (hstep : Settles step r first r) : Climbs ops least first links step r after := by
  cases links with
  | nil =>
    cases hf
    refine ⟨r, .nil r, .nil r, ?_⟩
    rw [List.takeWhile_nil, group_nil]
    exact hstep
  | cons link rest =>
    have hno : Link.reaches ops least link = false := by
      have hlt := hlinks link rfl
      simp [Link.reaches, hlt]
    refine ⟨r, ?_, ?_, ?_⟩
    · rw [List.takeWhile_cons_of_neg (by simp [hno])]
      exact .nil r
    · rw [List.dropWhile_cons_of_neg (by simp [hno])]
      exact hf
    · rw [List.takeWhile_cons_of_neg (by simp [hno]), group_nil]
      exact hstep

theorem Follows.current_cases (hf : Follows ops links r after) (hterm : after.current = some term)
    (hno : ¬ ops.Joins term) :
    ∃ t, r.current = some t ∧ ((links = [] ∧ ops.precedence t = -1) ∨
      ∃ link ∈ links.head?, ops.precedence t = link.rank ops) := by
  cases hf with
  | nil => exact ⟨term, hterm, Or.inl ⟨rfl, OperatorTable.precedence_of_not_joins hno⟩⟩
  | @cons link rest _ _ _ _ _ hfetch _ _ _ =>
    exact ⟨link.op, hfetch.current_eq, Or.inr ⟨link, rfl, rfl⟩⟩

theorem climbs_rightSide {op : Token} {operand : Expr}
    (hf : Follows ops links r after) (hterm : after.current = some term) (hno : ¬ ops.Joins term)
    (hclimb : Climbs ops (ops.precedence op + 1) operand links
      (fun depth => climb ops depth (ops.precedence op + 1) operand) r after) :
    Climbs ops (ops.precedence op + 1) operand links
      (fun depth => rightSide ops (climb ops depth) (ops.precedence op) operand) r after := by
  obtain ⟨t, ht, hcases⟩ := hf.current_cases hterm hno
  by_cases hlt : ops.precedence op < ops.precedence t
  · obtain ⟨middle, htight, hloose, hsettles⟩ := hclimb
    exact ⟨middle, htight, hloose, rightSide_of_tighter ht hlt hsettles⟩
  · refine Climbs.of_unreached ?_ hf (rightSide_of_looser ht (not_lt.1 hlt))
    intro link hlink
    rcases hcases with ⟨rfl, _⟩ | ⟨first, hfirst, hrank⟩
    · cases hlink
    · have heq : first = link := Option.some.inj (hfirst.symm.trans hlink)
      rw [← heq, ← hrank]
      omega

theorem takeWhile_reaches {least : Int} {link : Link} (rest : List Link)
    (hreach : least ≤ link.rank ops) :
    (link :: rest).takeWhile (Link.reaches ops least) =
      link :: rest.takeWhile (Link.reaches ops (link.rank ops + 1)) ++
        (rest.dropWhile (Link.reaches ops (link.rank ops + 1))).takeWhile
          (Link.reaches ops least) ∧
    (link :: rest).dropWhile (Link.reaches ops least) =
      (rest.dropWhile (Link.reaches ops (link.rank ops + 1))).dropWhile
        (Link.reaches ops least) := by
  have htight : ∀ l ∈ link :: rest.takeWhile (Link.reaches ops (link.rank ops + 1)),
      Link.reaches ops least l = true := by
    intro l hl
    rcases List.mem_cons.1 hl with rfl | hl
    · simpa [Link.reaches] using hreach
    · have htighter := List.mem_takeWhile_imp hl
      simp only [Link.reaches, decide_eq_true_eq] at htighter ⊢
      omega
  have happend : link :: rest = (link :: rest.takeWhile (Link.reaches ops (link.rank ops + 1))) ++
      rest.dropWhile (Link.reaches ops (link.rank ops + 1)) := by
    rw [List.cons_append, List.takeWhile_append_dropWhile]
  constructor
  · conv_lhs => rw [happend]
    exact List.takeWhile_append_of_pos htight
  · conv_lhs => rw [happend]
    exact List.dropWhile_append_of_pos htight

theorem rank_of_mem_takeWhile (ops : OperatorTable) {rank : Int} :
    ∀ link ∈ links.takeWhile (Link.reaches ops (rank + 1)), rank < link.rank ops := by
  intro link hlink
  have hreach := List.mem_takeWhile_imp hlink
  simp only [Link.reaches, decide_eq_true_eq] at hreach
  omega

theorem rank_of_head_dropWhile (ops : OperatorTable) {least rank : Int} :
    ∀ link ∈ ((links.dropWhile (Link.reaches ops (rank + 1))).takeWhile
      (Link.reaches ops least)).head?, link.rank ops ≤ rank := by
  intro link hlink
  have hhead := List.head?_dropWhile_not (Link.reaches ops (rank + 1)) links
  cases hloose : links.dropWhile (Link.reaches ops (rank + 1)) with
  | nil =>
    rw [hloose] at hlink
    cases hlink
  | cons first rest =>
    rw [hloose, List.takeWhile_cons] at hlink
    split at hlink
    · cases hlink
      rw [hloose] at hhead
      simp only [List.head?_cons, Link.reaches, decide_eq_false_iff_not] at hhead
      omega
    · cases hlink

theorem Climbs.of_chain {least : Int} {lhs : Expr} (hf : Follows ops links r after)
    (hterm : after.current = some term) (hno : ¬ ops.Joins term)
    (hchain : ∀ fuel, links.length < fuel → Climbs ops least lhs links
      (fun depth => chain ops (primary ops depth) (climb ops depth) least fuel lhs) r after) :
    Climbs ops least lhs links (fun depth => climb ops depth least lhs) r after := by
  obtain ⟨t, ht, _⟩ := hf.current_cases hterm hno
  have hlength := hf.length_le
  obtain ⟨middle, htight, hloose, hsettles⟩ := hchain (r.ahead.length + 1) (by omega)
  exact ⟨middle, htight, hloose, climb_settles_of_chain ht hsettles⟩

/-- One round takes a link with its right side, and what is left of the chain behind that follows. -/
theorem Climbs.round {link : Link} {rest : List Link} {start middle : Reader} {least : Int}
    {lhs : Expr} {fuel : Nat} (hreach : least ≤ link.rank ops) (hop : ops.Joins link.op)
    (hfetch : r.Passes [link.op] start) (htokens : start.Passes link.tokens middle)
    (hoperand : Settles (primary ops) start link.operand middle)
    (hright : Climbs ops (link.rank ops + 1) link.operand rest
      (fun depth => rightSide ops (climb ops depth) (ops.precedence link.op) link.operand)
      middle after)
    (hloose : ∀ later rhs, Follows ops (rest.dropWhile (Link.reaches ops (link.rank ops + 1)))
      later after → Climbs ops least (.binary link.op.word lhs rhs link.op.location)
        (rest.dropWhile (Link.reaches ops (link.rank ops + 1)))
        (fun depth => chain ops (primary ops depth) (climb ops depth) least fuel
          (.binary link.op.word lhs rhs link.op.location)) later after) :
    Climbs ops least lhs (link :: rest)
      (fun depth => chain ops (primary ops depth) (climb ops depth) least (fuel + 1) lhs)
      r after := by
  obtain ⟨later, htight, hleft, hrhs⟩ := hright
  obtain ⟨last, htaken, hrest, hsettles⟩ := hloose later _ hleft
  obtain ⟨htake, hdrop⟩ := takeWhile_reaches rest hreach
  refine ⟨last, ?_, ?_, ?_⟩
  · rw [htake]
    exact Follows.cons hop hfetch htokens hoperand (htight.append htaken)
  · rw [hdrop]
    exact hrest
  · rw [htake, group_absorb lhs (rank_of_mem_takeWhile ops) (rank_of_head_dropWhile ops)]
    exact chain_goes_on hreach hfetch hoperand hrhs hsettles

theorem climbs_chain (hf : Follows ops links r after) (hterm : after.current = some term)
    (hno : ¬ ops.Joins term) {least : Int} (hleast : 0 ≤ least) {fuel : Nat}
    (hfuel : links.length < fuel) (lhs : Expr) :
    Climbs ops least lhs links
      (fun depth => chain ops (primary ops depth) (climb ops depth) least fuel lhs) r after := by
  -- The right side of the first operator is a shorter chain, and so is what is left behind that.
  induction hlength : links.length using Nat.strong_induction_on
    generalizing links r least fuel lhs with
  | _ n ih =>
    obtain ⟨fuel, rfl⟩ : ∃ k, fuel = k + 1 := ⟨fuel - 1, by omega⟩
    cases hf with
    | nil =>
      have hlt : ops.precedence term < least := by
        rw [OperatorTable.precedence_of_not_joins hno]
        omega
      exact Climbs.of_unreached (by simp) (.nil _) (Settles.of_ok (chain_stops hterm hlt))
    | @cons link rest _ _ middle _ hop hfetch htokens hoperand hrest =>
      rw [List.length_cons] at hlength hfuel
      by_cases hreach : least ≤ link.rank ops
      · have hposit : 0 ≤ ops.precedence link.op + 1 := by
          have hnonneg := hop.precedence_nonneg
          omega
        have hclimb := Climbs.of_chain hrest hterm hno fun k hk =>
          ih rest.length (by omega) hrest hposit hk link.operand rfl
        have hright := climbs_rightSide hrest hterm hno hclimb
        refine Climbs.round hreach hop hfetch htokens hoperand hright fun later rhs hleft => ?_
        have hshorter := (List.dropWhile_suffix (l := rest)
          (Link.reaches ops (link.rank ops + 1))).length_le
        exact ih _ (by omega) hleft hleast (by omega) _ rfl
      · refine Climbs.of_unreached ?_ (.cons hop hfetch htokens hoperand hrest)
          (Settles.of_ok (chain_stops hfetch.current_eq (not_le.1 hreach)))
        intro l hl
        cases hl
        exact not_le.1 hreach

theorem climbs_climb (hf : Follows ops links r after) (hterm : after.current = some term)
    (hno : ¬ ops.Joins term) {least : Int} (hleast : 0 ≤ least) (lhs : Expr) :
    Climbs ops least lhs links (fun depth => climb ops depth least lhs) r after :=
  Climbs.of_chain hf hterm hno fun _ hfuel => climbs_chain hf hterm hno hleast hfuel lhs

end Chains

end Parse
end ScalarLang
