import ScalarLang.Proofs.Engine.CallGraph
import ScalarLang.Proofs.Engine.Returned
import ScalarLang.Proofs.Interpreter.Faults
import ScalarLang.Proofs.Interpreter.Meaning

/-!
# When execution yields a value

The language has no conditional, so code that runs to its end has made every call that stands in it.
A call that leads back to itself would contain a run of itself with less depth, and there is no
least one, so with a cycle no depth budget is enough. Without a cycle execution yields a value if
the names without a body are bound to native functions that take their arguments, and it yields none
otherwise.
-/
namespace ScalarLang

/-! ### From calls that return to a value -/

namespace Code

variable {natives : Ledger String Native} {definitions : Ledger String (Definition Code)}

theorem callNative_total {name : String} {native : Native} {args : List Float}
    (hn : natives.get? name = some native) (haccepts : native.Accepts args.length)
    (hplain : native.Plain args.length) : ∃ y, callNative natives name args = .ok y := by
  unfold callNative
  rw [hn]
  cases hresult : native args with
  | ok y => exact ⟨y, by simp only [hresult]⟩
  | error fault =>
    cases fault with
    | argumentCount => exact absurd hresult (haccepts args rfl)
    | domain => exact ⟨Decimal.notANumber, by simp only [hresult]⟩
    | range => exact ⟨Decimal.infinity, by simp only [hresult]⟩
    | other what => exact absurd hresult (hplain.quiet args rfl what)

open Classical in
/-- What a call yields, if it yields anything. -/
noncomputable def yielded (natives : Ledger String Native)
    (definitions : Ledger String (Definition Code)) (name : String) (values : List Float) :
    Option Float :=
  if h : ∃ y, Yields (enter natives definitions name values) y then some h.choose else none

theorem yields_of_yielded {name : String} {values : List Float} {y : Float}
    (h : yielded natives definitions name values = some y) :
    Yields (enter natives definitions name values) y := by
  unfold yielded at h
  split at h
  · next hyields =>
    cases h
    exact hyields.choose_spec
  · cases h

theorem exists_yielded {name : String} {values : List Float}
    (h : ∃ y, Yields (enter natives definitions name values) y) :
    ∃ y, yielded natives definitions name values = some y :=
  ⟨h.choose, dif_pos h⟩

/-- Lowered code yields a value if all calls in it do. -/
theorem yields_total {signatures : Signatures} {params : List String} {home : Option Location}
    {bound : Nat} {e : Expr} {code : Code} {args : List Float}
    (hcode : lower ⟨signatures, params, home⟩ bound e = .ok code)
    (hargs : params.length = args.length)
    (hcall : ∀ name ∈ e.callees, ∀ p values, signatures.get? name = some p →
      p.arity = values.length → ∃ y, Yields (enter natives definitions name values) y) :
    ∃ z, Yields (fun depth => run natives definitions depth code args) z := by
  obtain ⟨z, hz⟩ := (scoped_of_lower hcode).value_total (binding_total hargs)
    fun name hname p values hp hvalues => exists_yielded (hcall name hname p values hp hvalues)
  exact ⟨z, yields_of_value hcode (fun _ _ _ _ hy => yields_of_yielded hy) hz⟩

/-! ### From a value to calls that returned -/

/-- A call of a name with that many arguments yields a value within a depth budget. -/
def ReturnsWithin (natives : Ledger String Native) (definitions : Ledger String (Definition Code))
    (depth : Nat) (name : String) (count : Nat) : Prop :=
  ∃ inner < depth, ∃ values : List Float, values.length = count ∧
    ∃ y, enter natives definitions name values inner = .ok y

theorem ReturnsWithin.deeper {depth : Nat} {name : String} {count : Nat}
    (h : ReturnsWithin natives definitions depth name count) :
    ReturnsWithin natives definitions (depth + 1) name count := by
  obtain ⟨inner, hinner, hreturns⟩ := h
  exact ⟨inner, by omega, hreturns⟩

/-- Code that yields a value has made all the calls that stand in its expression, and with less
depth. -/
theorem returns_of_run {scope : Scope} {bound depth : Nat} {e : Expr} {code : Code}
    {args : List Float} {x : Float} (hcode : lower scope bound e = .ok code)
    (h : run natives definitions depth code args = .ok x) {name : String} {count : Nat}
    (hsite : (name, count) ∈ e.callSites) : ReturnsWithin natives definitions depth name count := by
  induction depth generalizing bound e code args x with
  | zero => cases h
  | succ depth ih =>
    cases bound with
    | zero => simp [lower] at hcode
    | succ bound =>
      cases e with
      | number value location => cases hsite
      | var name location => cases hsite
      | binary op lhs rhs location =>
        simp only [lower] at hcode
        obtain ⟨l, hl, hcode⟩ := bind_eq_ok.1 hcode
        obtain ⟨r, hr, hcode⟩ := bind_eq_ok.1 hcode
        split at hcode
        · cases hcode
          simp only [run] at h
          obtain ⟨y, hy, h⟩ := bind_eq_ok.1 h
          obtain ⟨z, hz, _⟩ := bind_eq_ok.1 h
          rcases List.mem_append.1 hsite with hsite | hsite
          · exact (ih hl hy hsite).deeper
          · exact (ih hr hz hsite).deeper
        · cases hcode
      | call callee exprs location =>
        simp only [lower] at hcode
        obtain ⟨p, _, hcode⟩ := bind_eq_ok.1 hcode
        obtain ⟨codes, hcodes, hcode⟩ := bind_eq_ok.1 hcode
        cases hcode
        simp only [run] at h
        obtain ⟨values, hvalues, h⟩ := bind_eq_ok.1 h
        have hlowered := forall₂_of_mapM hcodes
        have hran := forall₂_of_mapM hvalues
        rcases List.mem_cons.1 hsite with hown | hsite
        · cases hown
          have hcount : values.length = exprs.length :=
            (hlowered.length_eq.trans hran.length_eq).symm
          exact ⟨depth, by omega, values, hcount, x, h⟩
        · obtain ⟨arg, harg, hsite⟩ := Expr.mem_callSitesAll.1 hsite
          obtain ⟨i, hi, rfl⟩ := List.mem_iff_getElem.1 harg
          have hcode : i < codes.length := hlowered.length_eq ▸ hi
          have hvalue : i < values.length := hran.length_eq ▸ hcode
          exact (ih (hlowered.get hi hcode) (hran.get hcode hvalue) hsite).deeper

end Code

/-! ### Calls in a store -/

namespace Store.Current

open Functions (Calls Reaches CallsOut Supports)
open Interpreter

variable {natives : Ledger String Native} {depth : Nat} {s : Store Code}

theorem functions_scoped (hs : s.Current (lower depth)) :
    Functions.Scoped s.functions s.signatures := by
  intro name f hf
  obtain ⟨d, hd, rfl⟩ := exists_definition hf
  exact ⟨Code.scoped_of_lower (hs.lowered name d hd), _, hs.known name d hd, rfl⟩

/-- A call yields a value if no cycle can be reached from it and the native functions that can be
reached take their arguments. The induction is on the callees, which are well founded. -/
theorem enter_total (hs : s.Current (lower depth)) {name : String}
    (hacc : Acc (fun callee caller => Calls s.functions caller callee) name)
    (hnatives : ∀ reached p, Relation.ReflTransGen (Calls s.functions) name reached →
      s.functions.get? reached = none → s.signatures.get? reached = some p →
      ∃ native, natives.get? reached = some native ∧ native.Accepts p.arity ∧
        native.Plain p.arity)
    {p : Prototype} (hp : s.signatures.get? name = some p) {args : List Float}
    (hargs : p.arity = args.length) :
    ∃ y, Yields (Code.enter natives s.definitions name args) y := by
  induction hacc generalizing p args with
  | intro name _ ih =>
    cases hd : s.definitions.get? name with
    | none =>
      have hnone : s.functions.get? name = none := by rw [get?_functions, hd, Option.map_none]
      obtain ⟨native, hn, haccepts, hplain⟩ := hnatives name p .refl hnone hp
      rw [hargs] at haccepts hplain
      obtain ⟨y, hy⟩ := Code.callNative_total hn haccepts hplain
      exact ⟨y, .of_ok fun depth => by simp only [Code.enter, hd, hy]⟩
    | some d =>
      have hf : s.functions.get? name = some d.function := by
        rw [get?_functions, hd, Option.map_some]
      cases hp.symm.trans (hs.known name d hd)
      have hbody : ∃ y, Yields (fun depth => d.body.run natives s.definitions depth args) y := by
        refine Code.yields_total (hs.lowered name d hd) hargs ?_
        intro callee hcallee q values hq hvalues
        have hcall : Calls s.functions name callee := ⟨d.function, hf, hcallee⟩
        refine ih callee hcall (fun reached r hreached => ?_) hq hvalues
        exact hnatives reached r (.head hcall hreached)
      unfold Code.enter
      simp only [hd]
      exact hbody

theorem returns_of_calls (hs : s.Current (lower depth)) {caller callee : String}
    (hcall : Calls s.functions caller callee) {budget count : Nat}
    (h : Code.ReturnsWithin natives s.definitions budget caller count) :
    ∃ inner < budget, ∃ n, Code.ReturnsWithin natives s.definitions inner callee n := by
  obtain ⟨f, hf, hcallee⟩ := hcall
  obtain ⟨d, hd, rfl⟩ := exists_definition hf
  obtain ⟨n, hsite⟩ := Expr.mem_callees.1 hcallee
  obtain ⟨inner, hinner, values, _, y, hy⟩ := h
  simp only [Code.enter, hd] at hy
  exact ⟨inner, hinner, n, Code.returns_of_run (hs.lowered caller d hd) hy hsite⟩

theorem returns_of_transGen (hs : s.Current (lower depth)) {caller callee : String}
    (hpath : Relation.TransGen (Calls s.functions) caller callee) {budget count : Nat}
    (h : Code.ReturnsWithin natives s.definitions budget caller count) :
    ∃ inner < budget, ∃ n, Code.ReturnsWithin natives s.definitions inner callee n := by
  induction hpath with
  | single hcall => exact hs.returns_of_calls hcall h
  | tail _ hcall ih =>
    obtain ⟨middle, hmiddle, m, hreturns⟩ := ih
    obtain ⟨inner, hinner, n, hreturns⟩ := hs.returns_of_calls hcall hreturns
    exact ⟨inner, by omega, n, hreturns⟩

/-- A call that leads back to itself does not return: it would contain itself, with less depth. -/
theorem not_returns_of_cycle (hs : s.Current (lower depth)) {name : String}
    (hcycle : Relation.TransGen (Calls s.functions) name name) (budget count : Nat) :
    ¬ Code.ReturnsWithin natives s.definitions budget name count := by
  induction budget using Nat.strong_induction_on generalizing count with
  | _ budget ih =>
    intro h
    obtain ⟨inner, hinner, n, hreturns⟩ := hs.returns_of_transGen hcycle h
    exact ih inner hinner n hreturns

section Runs

variable {f : Function} {code : Code}

/-- What code reaches while it yields a value returns. -/
theorem returns_of_reaches (hs : s.Current (lower depth))
    (hcode : lower depth s.signatures f = .ok code)
    {budget : Nat} {args : List Float} {x : Float}
    (h : code.run natives s.definitions budget args = .ok x) {name : String}
    (hname : Reaches s.functions f.body name) :
    ∃ inner n, Code.ReturnsWithin natives s.definitions inner name n := by
  obtain ⟨root, hroot, hpath⟩ := hname
  obtain ⟨count, hsite⟩ := Expr.mem_callees.1 hroot
  have hreturns := Code.returns_of_run hcode h hsite
  rcases Relation.reflTransGen_iff_eq_or_transGen.1 hpath with rfl | hpath
  · exact ⟨budget, count, hreturns⟩
  · obtain ⟨inner, _, n, hreturns⟩ := hs.returns_of_transGen hpath hreturns
    exact ⟨inner, n, hreturns⟩

theorem returns_of_callsOut (hs : s.Current (lower depth))
    (hcode : lower depth s.signatures f = .ok code)
    {budget : Nat} {args : List Float} {x : Float}
    (h : code.run natives s.definitions budget args = .ok x) {name : String} {count : Nat}
    (hcall : CallsOut s.functions f.body name count) :
    ∃ inner, Code.ReturnsWithin natives s.definitions inner name count := by
  rcases hcall.site with hsite | ⟨caller, g, hcaller, hg, hsite⟩
  · exact ⟨budget, Code.returns_of_run hcode h hsite⟩
  · obtain ⟨inner, n, innermost, _, values, _, y, hy⟩ := hs.returns_of_reaches hcode h hcaller
    obtain ⟨d, hd, rfl⟩ := exists_definition hg
    simp only [Code.enter, hd] at hy
    exact ⟨innermost, Code.returns_of_run (hs.lowered caller d hd) hy hsite⟩

/-- Code that yields a value has all its calls supported. -/
theorem supports_of_run (hs : s.Current (lower depth))
    (hcode : lower depth s.signatures f = .ok code)
    (hplain : ∀ name count native, CallsOut s.functions f.body name count →
      natives.get? name = some native → native.Plain count)
    {budget : Nat} {args : List Float} {x : Float}
    (h : code.run natives s.definitions budget args = .ok x) :
    Supports s.functions natives f.body where
  acyclic name hname hcycle := by
    obtain ⟨inner, n, hreturns⟩ := hs.returns_of_reaches hcode h hname
    exact hs.not_returns_of_cycle hcycle inner n hreturns
  bound name count hcall := by
    obtain ⟨_, inner, _, values, hvalues, y, hy⟩ := hs.returns_of_callsOut hcode h hcall
    have hnone : s.definitions.get? name = none := by
      simpa [get?_functions] using hcall.bodyless
    simp only [Code.enter, hnone] at hy
    unfold Code.callNative at hy
    split at hy
    · cases hy
    · next native hn =>
      refine ⟨native, hn, fun others hothers hrefused => ?_⟩
      rw [(hplain name count native hcall hn).counted others values hothers hvalues hrefused] at hy
      cases hy

/-- Code whose calls are supported yields a value. -/
theorem yields_of_supports (hs : s.Current (lower depth))
    (hcode : lower depth s.signatures f = .ok code)
    (hplain : ∀ name count native, CallsOut s.functions f.body name count →
      natives.get? name = some native → native.Plain count)
    (h : Supports s.functions natives f.body) {args : List Float}
    (hargs : f.prototype.arity = args.length) :
    ∃ x, Yields (fun budget => code.run natives s.definitions budget args) x := by
  refine Code.yields_total hcode hargs fun name hname p values hp hvalues => ?_
  have hacc : Acc (fun callee caller => Calls s.functions caller callee) name :=
    Functions.acc_of_acyclic fun reached hreached => h.acyclic reached ⟨name, hname, hreached⟩
  refine hs.enter_total hacc (fun reached q hreached hnone hq => ?_) hp hvalues
  have hcall : CallsOut s.functions f.body reached q.arity :=
    Functions.callsOut_of_reaches hs.functions_scoped (Code.scoped_of_lower hcode)
      ⟨name, hname, hreached⟩ hnone hq
  obtain ⟨native, hn, haccepts⟩ := h.bound reached q.arity hcall
  exact ⟨native, hn, haccepts, hplain reached q.arity native hcall hn⟩

end Runs
end Store.Current

/-! ### The builtin functions -/

theorem Routine.isSome_call_congr (routine : Routine) {args others : List Float}
    (h : args.length = others.length) :
    (routine.call args).isSome = (routine.call others).isSome := by
  match args, others, h with
  | [], [], _ => rfl
  | [_], [_], _ => cases routine <;> simp only [call, Option.isSome_some]
  | [_, _], [_, _], _ => cases routine <;> simp only [call, Option.isSome_some]
  | _ :: _ :: _ :: _, _ :: _ :: _ :: _, _ => cases routine <;> rfl

namespace Native

theorem call_refused {routine : Routine} {args : List Float}
    (h : call routine args = .error .argumentCount) :
    routine.call args = none ∧ (routine = .log → args.length ≠ 2) := by
  rcases call_fault h with (hdomain | hrange) | ⟨_, hrefused⟩ | ⟨hother, _⟩
  · cases hdomain
  · cases hrange
  · exact hrefused
  · cases hother

theorem call_refused_congr {routine : Routine} {args others : List Float}
    (hlength : args.length = others.length) (h : call routine args = .error .argumentCount) :
    call routine others = .error .argumentCount := by
  obtain ⟨hnone, hlog⟩ := call_refused h
  have hothers : routine.call others = none := by
    have hsame := routine.isSome_call_congr hlength
    rw [hnone] at hsame
    simpa using hsame.symm
  unfold call
  split
  · cases hothers
  · cases hothers
  · exact absurd hlength (hlog rfl)
  · rw [hothers]

/-- The builtin functions refuse only numbers of arguments, and besides the logarithm to a base they
raise nothing of their own. -/
theorem plain_of_standard {name : String} {native : Native} {count : Nat}
    (h : standard.get? name = some native) (hlog : name = "log" → count ≠ 2) :
    native.Plain count := by
  obtain ⟨routine, _, rfl, rfl⟩ := get?_standard h
  refine ⟨fun args hargs what hother => ?_, fun args others hargs hothers hrefused => ?_⟩
  · obtain ⟨_, rfl, x, base, rfl, _⟩ := call_other hother
    exact hlog rfl hargs.symm
  · exact call_refused_congr (hargs.trans hothers.symm) hrefused

end Native

/-! ### Executing what was returned -/

namespace Interpreter

open Functions (Calls Reaches CallsOut Supports)

theorem engine_execute_eq_ok {natives : Ledger String Native} {depth : Nat} {s after : Store Code}
    {handle : Handle Code} {x : Float} :
    (engine natives depth).execute handle s = .ok x after ↔
      execute natives depth s handle = .ok x ∧ after = s := by
  constructor
  · intro h
    cases hresult : execute natives depth s handle with
    | ok y =>
      rw [engine_execute_of_ok hresult] at h
      cases h
      exact ⟨rfl, rfl⟩
    | error trap =>
      rw [engine_execute_of_error hresult] at h
      cases h
  · rintro ⟨h, rfl⟩
    exact engine_execute_of_ok h

/-- Whatever requests were served, and whatever native functions there are: executing a function
without parameters that was returned for one of them yields a value, once the depth budget is large
enough, exactly if all calls that it comes to make are supported, where native functions raise
nothing of their own on what they are called with and refuse only numbers of arguments. If it
reaches a cycle, no depth budget is large enough. -/
theorem execute_yields_iff_supported (natives : Ledger String Native) (limit : Nat)
    (history : List (Request (Handle Code))) {d : Definition Code}
    (hreturned : .defined d ∈ Answer.handles ((engine natives limit).serve {} history).1)
    (hzero : Handle.arity (.defined d) = 0) :
    let s := ((engine natives limit).serve {} history).2
    ((∀ name count native, CallsOut s.functions d.function.body name count →
        natives.get? name = some native → native.Plain count) →
      ((∃ x need, ∀ depth, need ≤ depth →
          (engine natives depth).execute (.defined d) s = .ok x s) ↔
        Supports s.functions natives d.function.body)) ∧
    ((∃ name, Reaches s.functions d.function.body name ∧
        Relation.TransGen (Calls s.functions) name name) →
      ∀ depth x after, (engine natives depth).execute (.defined d) s ≠ .ok x after) := by
  intro s
  have hs : s.Current (lower limit) :=
    Engine.serve_current (onStore natives limit) (lasting limit) history
  have hcode : lower limit s.signatures d.function = .ok d.body :=
    Engine.serve_lowered (onStore natives limit) (lasting limit) Store.closed_empty hreturned
  have hrun : ∀ depth, execute natives depth s (.defined d) =
      d.body.run natives s.definitions depth [] := fun depth => execute_eq_run natives depth s hzero
  have harity : d.function.prototype.arity = ([] : List Float).length :=
    Int.ofNat_eq_zero.1 hzero
  refine ⟨fun hplain => ⟨?_, fun hsupports => ?_⟩, ?_⟩
  · rintro ⟨x, need, hyields⟩
    have hvalue := (engine_execute_eq_ok.1 (hyields need le_rfl)).1
    rw [hrun] at hvalue
    exact hs.supports_of_run hcode hplain hvalue
  · obtain ⟨x, need, hyields⟩ := hs.yields_of_supports hcode hplain hsupports harity
    refine ⟨x, need, fun depth hdepth => engine_execute_of_ok ?_⟩
    rw [hrun]
    exact (hyields depth).1 hdepth
  · rintro ⟨name, hname, hcycle⟩ depth x after hvalue
    have hvalue := (engine_execute_eq_ok.1 hvalue).1
    rw [hrun] at hvalue
    obtain ⟨inner, n, hreturns⟩ := hs.returns_of_reaches hcode hvalue hname
    exact hs.not_returns_of_cycle hcycle inner n hreturns

/-! A function that calls a declared one, which gets a body only afterwards, and that calls a native
function. -/

namespace LateBody

def callee : Function := ⟨⟨"f", ["x"], none⟩, .call "sin" [.var "x" none] none⟩

def caller : Function := ⟨⟨"g", [], none⟩, .call "f" [.number 1.0 none] none⟩

def history : List (Request (Handle Code)) :=
  [.declare callee.prototype, .define caller, .declare ⟨"sin", ["x"], none⟩, .define callee]

/-- The functions that have a body after the history. -/
def functions : Functions := [("g", caller), ("f", callee)]

theorem get?_functions {name : String} {f : Function} (h : functions.get? name = some f) :
    (name = "g" ∧ f = caller) ∨ (name = "f" ∧ f = callee) := by
  rw [functions, Ledger.get?_cons, Ledger.get?_cons] at h
  split at h
  · next hname => exact .inl ⟨eq_of_beq hname, (Option.some.inj h).symm⟩
  · split at h
    · next hname => exact .inr ⟨eq_of_beq hname, (Option.some.inj h).symm⟩
    · cases h

theorem acyclic (name : String) : ¬ Relation.TransGen functions.Calls name name := by
  refine Functions.acyclic_of_rank (fun | "g" => 2 | "f" => 1 | _ => 0) (fun _ _ hcall => ?_) name
  obtain ⟨f, hf, hcallee⟩ := hcall
  rcases get?_functions hf with ⟨rfl, rfl⟩ | ⟨rfl, rfl⟩
  · cases List.mem_singleton.1 hcallee
    decide
  · cases List.mem_singleton.1 hcallee
    decide

theorem callsOut {name : String} {count : Nat} (h : functions.CallsOut caller.body name count) :
    name = "sin" ∧ count = 1 := by
  have hown : ∀ f, (name, count) ∈ f.body.callSites → f = caller ∨ f = callee →
      name = "sin" ∧ count = 1 := by
    rintro f hsite (rfl | rfl)
    · cases List.mem_singleton.1 hsite
      cases h.bodyless
    · cases List.mem_singleton.1 hsite
      exact ⟨rfl, rfl⟩
  rcases h.site with hsite | ⟨_, f, _, hf, hsite⟩
  · exact hown caller hsite (.inl rfl)
  · exact hown f hsite ((get?_functions hf).imp And.right And.right)

theorem supports : functions.Supports Native.standard caller.body where
  acyclic name _ := acyclic name
  bound name count hcall := by
    obtain ⟨rfl, rfl⟩ := callsOut hcall
    refine ⟨Native.call .sin, rfl, fun args hargs hrefused => ?_⟩
    obtain ⟨x, rfl⟩ := List.length_eq_one_iff.1 hargs
    cases (Native.call_refused hrefused).1

end LateBody

/-- The caller yields a value from some depth budget on; a function that calls itself never does. -/
theorem execute_yields_iff_supported_late_body :
    (let s := ((engine Native.standard 9).serve {} LateBody.history).2
    let d : Definition Code := ⟨LateBody.caller, .call "f" [.number 1.0]⟩
    (.defined d ∈ Answer.handles ((engine Native.standard 9).serve {} LateBody.history).1 ∧
      Handle.arity (.defined d) = 0 ∧
      ∀ name count native, CallsOut s.functions d.function.body name count →
        Native.standard.get? name = some native → native.Plain count) ∧
    ∃ x need, ∀ depth, need ≤ depth →
      (engine Native.standard depth).execute (.defined d) s = .ok x s) ∧
    let r : Function := ⟨⟨"r", [], none⟩, .call "r" [] none⟩
    let s := ((engine [] 9).serve {} [.define r]).2
    ∀ depth x after, (engine [] depth).execute (.defined ⟨r, .call "r" []⟩) s ≠ .ok x after := by
  refine ⟨?_, ?_⟩
  · intro s d
    have hreturned :
        .defined d ∈ Answer.handles ((engine Native.standard 9).serve {} LateBody.history).1 :=
      List.Mem.tail _ (List.Mem.head _)
    have hplain : ∀ name count native, CallsOut LateBody.functions d.function.body name count →
        Native.standard.get? name = some native → native.Plain count := by
      intro name count native hcall hn
      obtain ⟨rfl, _⟩ := LateBody.callsOut hcall
      exact Native.plain_of_standard hn fun hlog => absurd hlog (by decide)
    have hyields := execute_yields_iff_supported Native.standard 9 LateBody.history hreturned rfl
    exact ⟨⟨hreturned, rfl, hplain⟩, (hyields.1 hplain).2 LateBody.supports⟩
  · intro r s
    have hself : Relation.TransGen (Calls s.functions) "r" "r" :=
      .single ⟨r, rfl, List.mem_singleton_self _⟩
    have hyields := execute_yields_iff_supported [] 9 [.define r] (List.Mem.head _) rfl
    exact hyields.2 ⟨"r", ⟨"r", List.mem_singleton_self _, .refl⟩, hself⟩

end Interpreter
end ScalarLang
