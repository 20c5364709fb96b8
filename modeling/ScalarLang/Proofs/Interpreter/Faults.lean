import ScalarLang.Proofs.Interpreter.Safety

/-!
# Where a fault of a native function comes from

A fault that a native function raises passes through all the code around the call. So running code
ends in such a fault exactly if it comes to call a native function that raises it. Of the builtin
functions only the logarithm does, to a base whose own logarithm is zero.
-/
namespace ScalarLang

namespace Code

/-- Running `code` on `args` comes to call `name`, which has no body, on `values`: what is evaluated
before the call has given values. -/
inductive Invokes (natives : Ledger String Native)
    (definitions : Ledger String (Definition Code)) :
    Nat → Code → List Float → String → List Float → Prop
  | lhs {depth : Nat} {op : Operation} {lhs rhs : Code} {args values : List Float} {name : String}
      (h : Invokes natives definitions depth lhs args name values) :
      Invokes natives definitions (depth + 1) (.operation op lhs rhs) args name values
  | rhs {depth : Nat} {op : Operation} {lhs rhs : Code} {args values : List Float} {name : String}
      {x : Float} (hl : run natives definitions depth lhs args = .ok x)
      (h : Invokes natives definitions depth rhs args name values) :
      Invokes natives definitions (depth + 1) (.operation op lhs rhs) args name values
  | param {depth : Nat} {callee : String} {before after : List Code} {param : Code}
      {args done values : List Float} {name : String}
      (hb : before.mapM (fun param => run natives definitions depth param args) = .ok done)
      (h : Invokes natives definitions depth param args name values) :
      Invokes natives definitions (depth + 1) (.call callee (before ++ param :: after)) args name
        values
  | native {depth : Nat} {callee : String} {params : List Code} {args values : List Float}
      (hv : params.mapM (fun param => run natives definitions depth param args) = .ok values)
      (hd : definitions.get? callee = none) :
      Invokes natives definitions (depth + 1) (.call callee params) args callee values
  | body {depth : Nat} {callee : String} {params : List Code} {args inner values : List Float}
      {name : String} {d : Definition Code}
      (hv : params.mapM (fun param => run natives definitions depth param args) = .ok inner)
      (hd : definitions.get? callee = some d)
      (h : Invokes natives definitions depth d.body inner name values) :
      Invokes natives definitions (depth + 1) (.call callee params) args name values

variable {natives : Ledger String Native} {definitions : Ledger String (Definition Code)}

/-- A native function that fails ends the run that comes to call it. -/
theorem Invokes.run_error {depth : Nat} {code : Code} {args values : List Float} {name : String}
    {trap : Trap} (h : Invokes natives definitions depth code args name values)
    (hcall : callNative natives name values = .error trap) :
    run natives definitions depth code args = .error trap := by
  induction h with
  | lhs _ ih =>
    rw [run, ih hcall]
    rfl
  | rhs hl _ ih =>
    rw [run, hl, ih hcall]
    rfl
  | param hb _ ih =>
    rw [run, mapM_error_of_split hb (ih hcall)]
    rfl
  | native hv hd =>
    rw [run, hv]
    simp only [hd]
    exact hcall
  | body hv hd _ ih =>
    rw [run, hv]
    simp only [hd]
    exact ih hcall

theorem invokes_of_raised {depth : Nat} {code : Code} {args : List Float} {what : String}
    (h : run natives definitions depth code args = .error (.raised what)) :
    ∃ name values, Invokes natives definitions depth code args name values ∧
      callNative natives name values = .error (.raised what) := by
  induction depth generalizing code args with
  | zero => cases h
  | succ depth ih =>
    cases code with
    | number value => cases h
    | argument index =>
      simp only [run] at h
      split at h
      · cases h
      · cases h
    | operation op lhs rhs =>
      simp only [run] at h
      rcases bind_eq_error h with hl | ⟨x, hx, h⟩
      · obtain ⟨name, values, hinvokes, hcall⟩ := ih hl
        exact ⟨name, values, .lhs hinvokes, hcall⟩
      · rcases bind_eq_error h with hr | ⟨y, _, h⟩
        · obtain ⟨name, values, hinvokes, hcall⟩ := ih hr
          exact ⟨name, values, .rhs hx hinvokes, hcall⟩
        · cases h
    | call callee params =>
      simp only [run] at h
      rcases bind_eq_error h with hparams | ⟨inner, hinner, h⟩
      · obtain ⟨before, param, after, done, rfl, hdone, hparam⟩ :=
          exists_split_of_mapM_error hparams
        obtain ⟨name, values, hinvokes, hcall⟩ := ih hparam
        exact ⟨name, values, .param hdone hinvokes, hcall⟩
      · split at h
        · next d hd =>
          obtain ⟨name, values, hinvokes, hcall⟩ := ih h
          exact ⟨name, values, .body hinner hd hinvokes, hcall⟩
        · next hd => exact ⟨callee, inner, .native hinner hd, h⟩

end Code

/-! ### The builtin functions -/

namespace Native

/-- The arguments on which a logarithm divides by zero: both are in its domain, and the logarithm of
the base is zero. -/
structure ZeroDivision (x base : Float) : Prop where
  inDomain : ¬(x ≤ 0.0 ∨ base ≤ 0.0)
  divisor : (Math.log base == 0.0) = true

theorem checked_fault {routine : Routine} {args : List Float} {value : Float} {fault : NativeFault}
    (h : checked routine args value = .error fault) : fault = .domain ∨ fault = .range := by
  unfold checked infiniteFault at h
  split at h
  · exact .inl (Except.error.inj h).symm
  · split at h
    · split at h
      · exact .inr (Except.error.inj h).symm
      · split at h
        · exact .inl (Except.error.inj h).symm
        · exact .inr (Except.error.inj h).symm
      · exact .inl (Except.error.inj h).symm
    · cases h

theorem throughInteger_fault {x : Float} {fault : NativeFault}
    (h : throughInteger x = .error fault) : fault = .domain ∨ fault = .range := by
  unfold throughInteger at h
  split at h
  · exact .inl (Except.error.inj h).symm
  · split at h
    · exact .inr (Except.error.inj h).symm
    · cases h

theorem logBase_fault {x base : Float} {fault : NativeFault} (h : logBase x base = .error fault) :
    fault = .domain ∨ fault = .other "float division by zero" ∧ ZeroDivision x base := by
  unfold logBase at h
  split at h
  · exact .inl (Except.error.inj h).symm
  · next hdomain =>
    dsimp only at h
    split at h
    · next hzero => exact .inr ⟨(Except.error.inj h).symm, hdomain, hzero⟩
    · cases h

theorem ZeroDivision.logBase {x base : Float} (h : ZeroDivision x base) :
    Native.logBase x base = .error (.other "float division by zero") := by
  unfold Native.logBase
  rw [if_neg h.inDomain]
  exact if_pos h.divisor

/-- All faults of builtin functions: besides those of domain and range they refuse a number of
arguments, which for the logarithm is not two, and only the logarithm raises a fault of its own. -/
theorem call_fault {routine : Routine} {args : List Float} {fault : NativeFault}
    (h : call routine args = .error fault) :
    (fault = .domain ∨ fault = .range) ∨
      (fault = .argumentCount ∧ routine.call args = none ∧ (routine = .log → args.length ≠ 2)) ∨
      (fault = .other "float division by zero" ∧ routine = .log ∧
        ∃ x base, args = [x, base] ∧ ZeroDivision x base) := by
  unfold call at h
  split at h
  · exact .inl (throughInteger_fault h)
  · exact .inl (throughInteger_fault h)
  · next x base =>
    rcases logBase_fault h with hdomain | ⟨hother, hzero⟩
    · exact .inl (.inl hdomain)
    · exact .inr (.inr ⟨hother, rfl, x, base, rfl, hzero⟩)
  · next hlog =>
    split at h
    · exact .inl (checked_fault h)
    · next hnone =>
      refine .inr (.inl ⟨(Except.error.inj h).symm, hnone, fun hroutine hlength => ?_⟩)
      obtain ⟨x, base, hargs⟩ := List.length_eq_two.1 hlength
      exact hlog x base hroutine hargs

/-- Only the logarithm raises a fault of its own. -/
theorem call_other {routine : Routine} {args : List Float} {what : String}
    (h : call routine args = .error (.other what)) :
    what = "float division by zero" ∧ routine = .log ∧
      ∃ x base, args = [x, base] ∧ ZeroDivision x base := by
  rcases call_fault h with (hdomain | hrange) | ⟨hcount, _⟩ | ⟨hother, hlog⟩
  · cases hdomain
  · cases hrange
  · cases hcount
  · exact ⟨NativeFault.other.inj hother, hlog⟩

theorem get?_standard {name : String} {native : Native} (h : standard.get? name = some native) :
    ∃ routine ∈ builtins, routine.name = name ∧ native = call routine := by
  unfold standard at h
  generalize builtins = routines at h ⊢
  induction routines with
  | nil => cases h
  | cons routine rest ih =>
    rw [List.map_cons, Ledger.get?_cons] at h
    split at h
    · next hname =>
      cases h
      exact ⟨routine, List.mem_cons_self .., (eq_of_beq hname).symm, rfl⟩
    · obtain ⟨own, hmem, hown⟩ := ih h
      exact ⟨own, List.mem_cons_of_mem _ hmem, hown⟩

/-- Which calls of builtin functions raise a fault. -/
theorem callNative_raised_iff {name : String} {values : List Float} {what : String} :
    Code.callNative standard name values = .error (.raised what) ↔
      name = "log" ∧ what = "float division by zero" ∧
        ∃ x base, values = [x, base] ∧ ZeroDivision x base := by
  constructor
  · intro h
    unfold Code.callNative at h
    split at h
    · cases h
    · next native hn =>
      obtain ⟨routine, _, rfl, rfl⟩ := get?_standard hn
      split at h
      · cases h
      · cases h
      · cases h
      · cases h
      · next text hr =>
        cases h
        obtain ⟨hwhat, rfl, hargs⟩ := call_other hr
        exact ⟨rfl, hwhat, hargs⟩
  · rintro ⟨rfl, rfl, x, base, rfl, hzero⟩
    have hget : standard.get? "log" = some (call .log) := rfl
    have hcall : call .log [x, base] = .error (.other "float division by zero") := hzero.logBase
    unfold Code.callNative
    rw [hget]
    simp only [hcall]

end Native

/-- Code that runs with the builtin functions ends in a fault exactly if it comes to take a
logarithm that divides by zero. -/
theorem Code.run_raised_iff {definitions : Ledger String (Definition Code)} {depth : Nat}
    {code : Code} {args : List Float} {what : String} :
    run Native.standard definitions depth code args = .error (.raised what) ↔
      what = "float division by zero" ∧ ∃ x base, Native.ZeroDivision x base ∧
        Invokes Native.standard definitions depth code args "log" [x, base] := by
  constructor
  · intro h
    obtain ⟨name, values, hinvokes, hcall⟩ := invokes_of_raised h
    obtain ⟨rfl, hwhat, x, base, rfl, hzero⟩ := Native.callNative_raised_iff.1 hcall
    exact ⟨hwhat, x, base, hzero, hinvokes⟩
  · rintro ⟨rfl, x, base, hzero, hinvokes⟩
    exact hinvokes.run_error (Native.callNative_raised_iff.2 ⟨rfl, rfl, x, base, rfl, hzero⟩)

end ScalarLang
