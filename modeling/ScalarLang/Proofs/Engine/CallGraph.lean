import Mathlib.Data.Finset.Card
import ScalarLang.Proofs.Engine.Meaning

/-!
# The graph of calls

The calls that an expression comes to make, through the functions that have a body. Where no call
leads back to itself the calls are well founded, since only finitely many names have a body, and the
paths end at names without one. Those have to be bound to native functions that take as many
arguments as they are called with.
-/
namespace ScalarLang

/-! ### Calls in expressions -/

namespace Expr

mutual

/-- The calls that stand in an expression: the callee of each and the number of its arguments. -/
def callSites : Expr → List (String × Nat)
  | .number _ _ => []
  | .var _ _ => []
  | .binary _ lhs rhs _ => callSites lhs ++ callSites rhs
  | .call callee args _ => (callee, args.length) :: callSitesAll args

def callSitesAll : List Expr → List (String × Nat)
  | [] => []
  | e :: rest => callSites e ++ callSitesAll rest

end

theorem mem_callSitesAll {args : List Expr} {site : String × Nat} :
    site ∈ callSitesAll args ↔ ∃ arg ∈ args, site ∈ arg.callSites := by
  induction args with
  | nil => simp [callSitesAll]
  | cons arg rest ih => simp [callSitesAll, ih]

mutual

theorem callees_eq (e : Expr) : e.callees = e.callSites.map Prod.fst := by
  cases e with
  | number value location => rfl
  | var name location => rfl
  | binary op lhs rhs location =>
    rw [callees, callSites, List.map_append, callees_eq lhs, callees_eq rhs]
  | call callee args location =>
    rw [callees, callSites, List.map_cons, calleesAll_eq args]

theorem calleesAll_eq (args : List Expr) : calleesAll args = (callSitesAll args).map Prod.fst := by
  cases args with
  | nil => rfl
  | cons arg rest =>
    rw [calleesAll, callSitesAll, List.map_append, callees_eq arg, calleesAll_eq rest]

end

theorem mem_callees {e : Expr} {name : String} :
    name ∈ e.callees ↔ ∃ count, (name, count) ∈ e.callSites := by
  simp [callees_eq]

/-- A call passes as many arguments as the signature of the callee has parameters. -/
theorem Scoped.arity_of_callSite {signatures : Signatures} {params : List String} {e : Expr}
    (h : e.Scoped signatures params) {name : String} {count : Nat}
    (hsite : (name, count) ∈ e.callSites) :
    ∃ p, signatures.get? name = some p ∧ p.arity = count := by
  induction h with
  | number value location => cases hsite
  | var location hname => cases hsite
  | binary location _ _ _ ihl ihr =>
    rcases List.mem_append.1 hsite with hsite | hsite
    · exact ihl hsite
    · exact ihr hsite
  | @call callee args p location hp ha _ ih =>
    rcases List.mem_cons.1 hsite with hown | hsite
    · cases hown
      exact ⟨p, hp, ha⟩
    · obtain ⟨arg, harg, hsite⟩ := mem_callSitesAll.1 hsite
      exact ih arg harg hsite

theorem Scoped.callSite {signatures : Signatures} {params : List String} {e : Expr}
    (h : e.Scoped signatures params) {name : String} (hname : name ∈ e.callees) {p : Prototype}
    (hp : signatures.get? name = some p) : (name, p.arity) ∈ e.callSites := by
  obtain ⟨count, hsite⟩ := mem_callees.1 hname
  obtain ⟨q, hq, hcount⟩ := h.arity_of_callSite hsite
  cases hp.symm.trans hq
  rw [hcount]
  exact hsite

end Expr

/-! ### Native functions -/

namespace Native

/-- A native function takes that many arguments, whatever they are. -/
def Accepts (native : Native) (count : Nat) : Prop :=
  ∀ args : List Float, args.length = count → native args ≠ .error .argumentCount

/-- On that many arguments, a native function raises nothing of its own, and if it does not take
some of them it is because of their number. -/
structure Plain (native : Native) (count : Nat) : Prop where
  quiet : ∀ args : List Float, args.length = count → ∀ what, native args ≠ .error (.other what)
  counted : ∀ args others : List Float, args.length = count → others.length = count →
    native args = .error .argumentCount → native others = .error .argumentCount

end Native

/-! ### The graph of calls -/

namespace Functions

variable {functions : Functions} {signatures : Signatures} {e : Expr}

/-- An expression comes to call a name that has no body, with that many arguments: the call stands
in it or in a function that it reaches. -/
structure CallsOut (functions : Functions) (e : Expr) (name : String) (count : Nat) : Prop where
  bodyless : functions.get? name = none
  site : (name, count) ∈ e.callSites ∨ ∃ caller f, functions.Reaches e caller ∧
    functions.get? caller = some f ∧ (name, count) ∈ f.body.callSites

/-- All calls that an expression comes to make can return: none leads back to itself, and where
there is no body there is a native function that takes as many arguments as are passed. -/
structure Supports (functions : Functions) (natives : Ledger String Native) (e : Expr) : Prop where
  acyclic : ∀ name, functions.Reaches e name → ¬ Relation.TransGen functions.Calls name name
  bound : ∀ name count, functions.CallsOut e name count →
    ∃ native, natives.get? name = some native ∧ native.Accepts count

/-- Calls are well founded where there is no cycle. The measure is the number of names with a body
that can be reached: a caller can be reached from itself, and not from its callee. -/
theorem acc_of_acyclic {name : String}
    (h : ∀ reached, Relation.ReflTransGen functions.Calls name reached →
      ¬ Relation.TransGen functions.Calls reached reached) :
    Acc (fun callee caller => functions.Calls caller callee) name := by
  classical
  let within (name : String) : Finset String :=
    functions.keys.toFinset.filter (Relation.ReflTransGen functions.Calls name)
  induction hcard : (within name).card using Nat.strong_induction_on generalizing name with
  | _ card ih =>
    refine ⟨name, fun callee hcall => ?_⟩
    have hfewer : within callee ⊂ within name := by
      have hsubset : within callee ⊆ within name := by
        intro reached hreached
        obtain ⟨hkey, hreached⟩ := Finset.mem_filter.1 hreached
        exact Finset.mem_filter.2 ⟨hkey, .head hcall hreached⟩
      refine (Finset.ssubset_iff_of_subset hsubset).2 ⟨name, ?_, fun hname => ?_⟩
      · obtain ⟨f, hf, _⟩ := hcall
        exact Finset.mem_filter.2 ⟨List.mem_toFinset.2 (Ledger.mem_keys_of_get? hf), .refl⟩
      · exact h name .refl (.head' hcall (Finset.mem_filter.1 hname).2)
    refine ih _ (hcard ▸ Finset.card_lt_card hfewer) (fun reached hreached => ?_) rfl
    exact h reached (.head hcall hreached)

theorem rank_lt_of_transGen {rank : String → Nat}
    (h : ∀ caller callee, functions.Calls caller callee → rank callee < rank caller)
    {caller callee : String} (hpath : Relation.TransGen functions.Calls caller callee) :
    rank callee < rank caller := by
  induction hpath with
  | single hcall => exact h _ _ hcall
  | tail _ hcall ih => exact (h _ _ hcall).trans ih

/-- No call leads back to itself if every call goes down in rank. -/
theorem acyclic_of_rank (rank : String → Nat)
    (h : ∀ caller callee, functions.Calls caller callee → rank callee < rank caller)
    (name : String) : ¬ Relation.TransGen functions.Calls name name :=
  fun hcycle => lt_irrefl _ (rank_lt_of_transGen h hcycle)

theorem callsOut_of_reaches (hscoped : functions.Scoped signatures) {params : List String}
    (he : e.Scoped signatures params) {name : String} (h : functions.Reaches e name)
    (hnone : functions.get? name = none) {p : Prototype} (hp : signatures.get? name = some p) :
    functions.CallsOut e name p.arity := by
  refine ⟨hnone, ?_⟩
  obtain ⟨root, hroot, hpath⟩ := h
  rcases Relation.ReflTransGen.cases_tail hpath with rfl | ⟨caller, hcaller, f, hf, hname⟩
  · exact .inl (he.callSite hroot hp)
  · exact .inr ⟨caller, f, ⟨root, hroot, hcaller⟩, hf, (hscoped caller f hf).1.callSite hname hp⟩

end Functions

end ScalarLang
