import ScalarLang.Proofs.Engine.Kept
import ScalarLang.Proofs.Engine.Meaning

/-!
# The interpreter computes what functions mean

Running lowered code gives the value of the expression that it was lowered from, from some depth
budget on; with less it fails for want of depth. Expressions take levels of that budget as well as
calls, so the budget that is needed depends on the code and is found along with the value.
-/
namespace ScalarLang

/-! ### Runs under a depth budget -/

/-- A run that takes a depth budget yields a value: from some budget on that is its result, and with
less it runs out of depth. -/
def Yields {α : Type} (run : Nat → Except Trap α) (a : α) : Prop :=
  ∃ need, ∀ depth, (need ≤ depth → run depth = .ok a) ∧ (depth < need → run depth = .error .depth)

namespace Yields

variable {α β : Type}

theorem of_ok {run : Nat → Except Trap α} {a : α} (h : ∀ depth, run depth = .ok a) :
    Yields run a :=
  ⟨0, fun depth => ⟨fun _ => h depth, fun hlt => absurd hlt (Nat.not_lt_zero depth)⟩⟩

theorem bind {run : Nat → Except Trap α} {next : Nat → α → Except Trap β} {a : α} {b : β}
    (ha : Yields run a) (hb : Yields (fun depth => next depth a) b) :
    Yields (fun depth => run depth >>= next depth) b := by
  obtain ⟨n, hn⟩ := ha
  obtain ⟨m, hm⟩ := hb
  refine ⟨max n m, fun depth => ⟨fun hle => ?_, fun hlt => ?_⟩⟩
  · have hok := (hn depth).1 (by omega)
    have hnext := (hm depth).1 (by omega)
    change (run depth >>= next depth) = _
    rw [hok]
    exact hnext
  · change (run depth >>= next depth) = _
    by_cases hle : n ≤ depth
    · have hdeep := (hm depth).2 (by omega)
      rw [(hn depth).1 hle]
      exact hdeep
    · rw [(hn depth).2 (by omega)]
      rfl

theorem deeper {run : Nat → Except Trap α} {a : α} (hzero : run 0 = .error .depth)
    (h : Yields (fun depth => run (depth + 1)) a) : Yields run a := by
  obtain ⟨need, h⟩ := h
  refine ⟨need + 1, fun depth => ?_⟩
  cases depth with
  | zero => exact ⟨fun hle => absurd hle (by omega), fun _ => hzero⟩
  | succ depth =>
    obtain ⟨hle, hlt⟩ := h depth
    exact ⟨fun h => hle (by omega), fun h => hlt (by omega)⟩

theorem mapM {run : Nat → α → Except Trap β} {as : List α} {bs : List β}
    (h : List.Forall₂ (fun a b => Yields (fun depth => run depth a) b) as bs) :
    Yields (fun depth => as.mapM (run depth)) bs := by
  induction h with
  | nil => exact of_ok fun _ => rfl
  | cons hab _ ih =>
    simp only [List.mapM_cons]
    refine hab.bind (ih.bind ?_)
    exact of_ok fun _ => rfl

end Yields

/-! ### Lowered expressions -/

namespace Code

variable {signatures : Signatures} {params : List String} {home : Option Location}

theorem scoped_of_lower {depth : Nat} {e : Expr} {code : Code}
    (h : lower ⟨signatures, params, home⟩ depth e = .ok code) : e.Scoped signatures params := by
  induction depth generalizing e code with
  | zero => simp [lower] at h
  | succ depth ih =>
    cases e with
    | number x location => exact .number x location
    | var name location =>
      simp only [lower] at h
      split at h
      · next index hi =>
        refine .var location ?_
        by_contra hnot
        rw [lastIndex?_eq_none.2 hnot] at hi
        cases hi
      · cases h
    | binary op lhs rhs location =>
      simp only [lower] at h
      obtain ⟨l, hl, h⟩ := bind_eq_ok.1 h
      obtain ⟨r, hr, h⟩ := bind_eq_ok.1 h
      split at h
      · next operation hop => exact .binary location hop (ih hl) (ih hr)
      · cases h
    | call callee args location =>
      simp only [lower] at h
      obtain ⟨p, hp, h⟩ := bind_eq_ok.1 h
      obtain ⟨codes, hcodes, _⟩ := bind_eq_ok.1 h
      obtain ⟨hget, harity⟩ := Signatures.resolve_eq_ok hp
      have hall := forall₂_of_mapM hcodes
      refine .call location hget harity fun arg harg => ?_
      obtain ⟨i, hi, rfl⟩ := List.mem_iff_getElem.1 harg
      exact ih (hall.get hi (hall.length_eq ▸ hi))

/-- A call of a name as code that runs makes it. -/
def enter (natives : Ledger String Native) (definitions : Ledger String (Definition Code))
    (name : String) (values : List Float) (depth : Nat) : Except Trap Float :=
  match definitions.get? name with
  | some definition => run natives definitions depth definition.body values
  | none => callNative natives name values

variable {natives : Ledger String Native} {definitions : Ledger String (Definition Code)}
  {call : String → List Float → Option Float}

/-- Code yields the value of the expression that it was lowered from, if calls yield what they are
said to. The induction is on the budget of lowering, of which each part of the expression has one
level less. -/
theorem yields_of_value {bound : Nat} {e : Expr} {code : Code} {args : List Float} {z : Float}
    (h : lower ⟨signatures, params, home⟩ bound e = .ok code)
    (hcall : ∀ name ∈ e.callees, ∀ xs y, call name xs = some y →
      Yields (enter natives definitions name xs) y)
    (hz : e.value call (binding params args) = some z) :
    Yields (fun depth => run natives definitions depth code args) z := by
  induction bound generalizing e code z with
  | zero => simp [lower] at h
  | succ bound ih =>
    refine Yields.deeper (by cases code <;> rfl) ?_
    cases e with
    | number x location =>
      simp only [lower] at h
      cases h
      cases hz
      exact .of_ok fun _ => rfl
    | var name location =>
      simp only [lower] at h
      split at h
      · next index hi =>
        cases h
        have hget : args[index]? = some z := by simpa [Expr.value, binding, hi] using hz
        exact .of_ok fun _ => by simp only [run, hget]
      · cases h
    | binary op lhs rhs location =>
      simp only [lower] at h
      obtain ⟨l, hl, h⟩ := bind_eq_ok.1 h
      obtain ⟨r, hr, h⟩ := bind_eq_ok.1 h
      obtain ⟨x, y, operation, hx, hy, hop, rfl⟩ := Expr.value_binary_eq_some.1 hz
      rw [hop] at h
      cases h
      simp only [run]
      refine (ih hl ?_ hx).bind ((ih hr ?_ hy).bind (.of_ok fun _ => rfl))
      · exact fun name hname => hcall name (List.mem_append_left _ hname)
      · exact fun name hname => hcall name (List.mem_append_right _ hname)
    | call callee exprs location =>
      simp only [lower] at h
      obtain ⟨p, _, h⟩ := bind_eq_ok.1 h
      obtain ⟨codes, hcodes, h⟩ := bind_eq_ok.1 h
      cases h
      obtain ⟨xs, hxs, hcallee⟩ := Expr.value_call_eq_some.1 hz
      simp only [run]
      have hargs : List.Forall₂
          (fun code x => Yields (fun depth => run natives definitions depth code args) x)
          codes xs := by
        have hlowered := forall₂_of_mapM hcodes
        have hvalues := Expr.values_eq_some.1 hxs
        have hcount := hlowered.length_eq
        refine List.forall₂_iff_get.2 ⟨hcount ▸ hvalues.length_eq, fun i hi hj => ?_⟩
        have hexpr : i < exprs.length := hcount ▸ hi
        refine ih (hlowered.get hexpr hi) ?_ (hvalues.get hexpr hj)
        intro name hname
        refine hcall name (List.mem_cons_of_mem _ (Expr.mem_calleesAll.2 ⟨_, ?_, hname⟩))
        exact List.get_mem _ _
      exact (Yields.mapM hargs).bind (hcall callee (List.mem_cons_self ..) xs z hcallee)

end Code

/-! ### Kept functions -/

namespace Interpreter

variable {depth : Nat} {s : Store Code}

theorem scoped_of_kept (hs : s.Kept (lower depth)) : Functions.Scoped s.functions s.signatures := by
  intro name f hf
  obtain ⟨d, hd, rfl⟩ := Store.exists_definition hf
  have hkept := hs name d hd
  obtain ⟨earlier, hbody, hext⟩ := hkept.lowered
  exact ⟨(Code.scoped_of_lower hbody).extend hext, hkept.known⟩

/-- The induction is on the calls that may be inside one another. -/
theorem enter_yields (natives : Ledger String Native) (hs : s.Kept (lower depth)) {calls : Nat}
    {name : String} {args : List Float} {z : Float}
    (h : Functions.call s.functions calls name args = some z) :
    Yields (Code.enter natives s.definitions name args) z := by
  induction calls generalizing name args z with
  | zero => cases h
  | succ calls ih =>
    obtain ⟨f, hf, _, hz⟩ := Functions.call_succ_eq_some.1 h
    obtain ⟨d, hd, rfl⟩ := Store.exists_definition hf
    obtain ⟨earlier, hbody, _⟩ := (hs name d hd).lowered
    have hrun : Yields (fun depth => d.body.run natives s.definitions depth args) z :=
      Code.yields_of_value hbody (fun callee _ xs y hy => ih hy) hz
    unfold Code.enter
    simp only [hd]
    exact hrun

theorem execute_yields (natives : Ledger String Native) (hs : s.Kept (lower depth)) {f : Function}
    {code : Code} {earlier : Signatures} (hcode : lower depth earlier f = .ok code)
    (harity : f.prototype.arity = 0) {calls : Nat} {z : Float}
    (hz : f.body.value (Functions.call s.functions calls) (binding f.prototype.params []) =
      some z) :
    Yields (fun budget => execute natives budget s (.defined ⟨f, code⟩)) z := by
  have hzero : Handle.arity (.defined ⟨f, code⟩) = 0 := by simp [Handle.arity, harity]
  have hstart : ∀ budget, execute natives budget s (.defined ⟨f, code⟩) =
      code.run natives s.definitions budget [] := by
    intro budget
    simp [execute, hzero]
  simp only [hstart]
  exact Code.yields_of_value hcode (fun callee _ xs y hy => enter_yields natives hs hy) hz

theorem engine_execute_of_ok {natives : Ledger String Native} {handle : Handle Code} {x : Float}
    (h : execute natives depth s handle = .ok x) :
    (engine natives depth).execute handle s = .ok x s := by
  change (ofExcept (execute natives depth s handle) : EStateM Trap (Store Code) Float) s = _
  rw [h]
  rfl

theorem engine_execute_of_error {natives : Ledger String Native} {handle : Handle Code}
    {trap : Trap} (h : execute natives depth s handle = .error trap) :
    (engine natives depth).execute handle s = .error trap s := by
  change (ofExcept (execute natives depth s handle) : EStateM Trap (Store Code) Float) s = _
  rw [h]
  rfl

end Interpreter
end ScalarLang
