import Mathlib
import ScalarLang.IR.Evaluate
import ScalarLang.Proofs.Interpreter.Faults

/-!
# Infinite and invalid results

What the interpreter makes of the results of the mathematical routines. Its native functions check
their results and fail, and the handler of the failure has one value for each kind of it. So a
result can be lost: infinities become a value that is not a number or change their sign, and so does
a negative zero on the way through an integer. Compiled code calls the routines themselves.
-/
namespace ScalarLang

open Float.Model

/-! ### Doubles of each kind -/

section Doubles

variable {x : Float}

theorem eq_pack_unpack (x : Float) : x = .ofModel (.pack x.toModel.unpack) :=
  (Float.ofBits_toBits x).symm

theorem eq_notANumber_of_isNaN (h : x.isNaN = true) : x = Decimal.notANumber := by
  rw [eq_pack_unpack x]
  change x.toModel.unpack.isNaN = true at h
  cases hx : x.toModel.unpack with
  | notANumber => rfl
  | _ =>
    rw [hx] at h
    cases h

theorem eq_infinity_of_isInf (h : x.isInf = true) :
    x = Decimal.infinity ∨ x = -Decimal.infinity := by
  rw [eq_pack_unpack x]
  change x.toModel.unpack.isInf = true at h
  cases hx : x.toModel.unpack with
  | infinity sign =>
    cases sign with
    | negative => exact Or.inr rfl
    | positive => exact Or.inl rfl
  | _ =>
    rw [hx] at h
    cases h

/-- Adding a zero changes the negative zero and nothing else. -/
theorem add_zero_of_ne (h : x ≠ -0.0) : x + 0.0 = x := by
  have hpacked := eq_pack_unpack x
  have hzero : (0.0 : Float).toModel.unpack = .zero .positive := rfl
  have hadd : x + 0.0 = .ofModel (.pack (.add Format.binary64 x.toModel.unpack
      (.zero .positive))) := by
    rw [← hzero]
    rfl
  rw [hadd]
  conv_rhs => rw [hpacked]
  cases hx : x.toModel.unpack with
  | zero sign =>
    cases sign with
    | negative =>
      rw [hx] at hpacked
      exact absurd hpacked h
    | positive => rfl
  | _ => rfl

theorem negative_zero_add_zero : (-0.0 : Float) + 0.0 = 0.0 := rfl

theorem ne_of_toBits {y : Float} (h : x.toBits ≠ y.toBits) : x ≠ y := by
  rintro rfl
  exact h rfl

theorem infinity_ne_neg : Decimal.infinity ≠ -Decimal.infinity := ne_of_toBits (by decide)

theorem notANumber_ne_infinity : Decimal.notANumber ≠ Decimal.infinity := ne_of_toBits (by decide)

theorem notANumber_ne_neg : Decimal.notANumber ≠ -Decimal.infinity := ne_of_toBits (by decide)

theorem zero_ne_negative_zero : (0.0 : Float) ≠ -0.0 := ne_of_toBits (by decide)

end Doubles

/-! ### Lost results -/

namespace Native

/-- The interpreter loses the result of a routine: an infinite result of finite arguments, unless it
is positive and the routine grows out of range, and what an integer cannot hold. -/
def Lost : Routine → List Float → Float → Prop
  | .floor, _, value | .ceil, _, value => value = -Decimal.infinity ∨ value = -0.0
  | .exp, args, value => args.all Float.isFinite = true ∧ value = -Decimal.infinity
  | .pow, x :: rest, value => (x :: rest).all Float.isFinite = true ∧
      (value = -Decimal.infinity ∨ value = Decimal.infinity ∧ (x == 0.0) = true)
  | _, args, value => args.all Float.isFinite = true ∧ value.isInf = true

/-- What stands in place of a lost result. -/
def substitute : Routine → List Float → Float → Float
  | .floor, _, value | .ceil, _, value => if value.isInf then Decimal.infinity else 0.0
  | .exp, _, _ => Decimal.infinity
  | .pow, x :: _, _ => if x == 0.0 then Decimal.notANumber else Decimal.infinity
  | _, _, _ => Decimal.notANumber

/-- What the interpreter makes of the outcome of a native function. -/
def settled (outcome : Except NativeFault Float) : Option Float :=
  match outcome with
  | .ok value => some value
  | .error .domain => some Decimal.notANumber
  | .error .range => some Decimal.infinity
  | .error _ => none

variable {routine : Routine} {args : List Float} {value w : Float}

theorem get?_standard_of_mem (h : routine ∈ builtins) :
    standard.get? routine.name = some (call routine) := by
  simp only [builtins, List.mem_cons, List.not_mem_nil, or_false] at h
  rcases h with rfl | rfl | rfl | rfl | rfl | rfl | rfl | rfl | rfl | rfl | rfl | rfl | rfl
  all_goals rfl

theorem callNative_of_settled (h : routine ∈ builtins) (hw : settled (call routine args) = some w) :
    Code.callNative standard routine.name args = .ok w := by
  unfold Code.callNative
  rw [get?_standard_of_mem h]
  cases hcall : call routine args with
  | ok value =>
    rw [hcall] at hw
    cases hw
    simp only [hcall]
  | error fault =>
    rw [hcall] at hw
    cases fault with
    | domain | range =>
      cases hw
      simp only [hcall]
    | _ => cases hw

/-- The value is kept, or it is lost and another one stands in its place. -/
def Kept (routine : Routine) (args : List Float) (value w : Float) : Prop :=
  ¬ Lost routine args value ∧ w = value ∨
    Lost routine args value ∧ w = substitute routine args value ∧ w ≠ value

theorem checked_cases (routine : Routine) (args : List Float) (value : Float) :
    (args.all Float.isFinite = true ∧ value.isInf = true ∧
      checked routine args value = .error (infiniteFault routine args)) ∨
    (¬ (args.all Float.isFinite = true ∧ value.isInf = true) ∧
      settled (checked routine args value) = some value) := by
  unfold checked
  split
  · next h =>
    have hnan : value.isNaN = true := by
      rw [Bool.and_eq_true] at h
      exact h.1
    obtain rfl := eq_notANumber_of_isNaN hnan
    refine Or.inr ⟨fun hinf => ?_, rfl⟩
    exact absurd hinf.2 (by decide)
  · split
    · next h =>
      rw [Bool.and_eq_true] at h
      exact Or.inl ⟨h.2, h.1, rfl⟩
    · next h =>
      rw [Bool.and_eq_true] at h
      exact Or.inr ⟨fun hinf => h ⟨hinf.2, hinf.1⟩, rfl⟩

theorem throughInteger_kept (h : routine = .floor ∨ routine = .ceil) (value : Float) :
    ∃ w, settled (throughInteger value) = some w ∧ Kept routine args value w := by
  have hlost : Lost routine args value ↔ value = -Decimal.infinity ∨ value = -0.0 := by
    rcases h with rfl | rfl
    all_goals rfl
  have hsubstitute : substitute routine args value =
      if value.isInf then Decimal.infinity else 0.0 := by
    rcases h with rfl | rfl
    all_goals rfl
  unfold throughInteger Kept
  rw [hlost, hsubstitute]
  by_cases hnan : value.isNaN = true
  · obtain rfl := eq_notANumber_of_isNaN hnan
    refine ⟨Decimal.notANumber, by rw [if_pos hnan]; rfl, Or.inl ⟨?_, rfl⟩⟩
    rintro (h | h)
    · exact notANumber_ne_neg h
    · exact absurd h (ne_of_toBits (by decide))
  · rw [if_neg hnan]
    by_cases hinf : value.isInf = true
    · rw [if_pos hinf, if_pos hinf]
      refine ⟨Decimal.infinity, rfl, ?_⟩
      rcases eq_infinity_of_isInf hinf with rfl | rfl
      · refine Or.inl ⟨?_, rfl⟩
        rintro (h | h)
        · exact infinity_ne_neg h
        · exact absurd h (ne_of_toBits (by decide))
      · exact Or.inr ⟨Or.inl rfl, rfl, infinity_ne_neg⟩
    · rw [if_neg hinf, if_neg hinf]
      by_cases hzero : value = -0.0
      · subst hzero
        exact ⟨0.0, congrArg some negative_zero_add_zero, Or.inr ⟨Or.inr rfl, rfl,
          zero_ne_negative_zero⟩⟩
      · refine ⟨value, congrArg some (add_zero_of_ne hzero), Or.inl ⟨?_, rfl⟩⟩
        rintro (rfl | h)
        · exact hinf (by decide)
        · exact hzero h

theorem notANumber_ne_of_isInf (h : value.isInf = true) : Decimal.notANumber ≠ value := by
  rcases eq_infinity_of_isInf h with rfl | rfl
  · exact notANumber_ne_infinity
  · exact notANumber_ne_neg

/-- A pole is reported as a value that is not a number. -/
theorem pole_kept (hinf : value.isInf = true) (hlost : Lost routine args value)
    (hsubstitute : substitute routine args value = Decimal.notANumber) :
    Kept routine args value Decimal.notANumber :=
  Or.inr ⟨hlost, hsubstitute.symm, notANumber_ne_of_isInf hinf⟩

/-- A result out of range is reported as positive infinity. -/
theorem overflow_kept (hinf : value.isInf = true)
    (hlost : Lost routine args value ↔ value = -Decimal.infinity)
    (hsubstitute : substitute routine args value = Decimal.infinity) :
    Kept routine args value Decimal.infinity := by
  unfold Kept
  rw [hlost, hsubstitute]
  rcases eq_infinity_of_isInf hinf with rfl | rfl
  · exact Or.inl ⟨infinity_ne_neg, rfl⟩
  · exact Or.inr ⟨rfl, rfl, infinity_ne_neg⟩

theorem infinite_kept (hfloor : routine ≠ .floor) (hceil : routine ≠ .ceil)
    (hv : routine.call args = some value) (hargs : args.all Float.isFinite = true)
    (hinf : value.isInf = true) :
    ∃ w, settled (.error (infiniteFault routine args)) = some w ∧ Kept routine args value w := by
  cases routine with
  | floor => exact absurd rfl hfloor
  | ceil => exact absurd rfl hceil
  | exp =>
    refine ⟨Decimal.infinity, rfl, overflow_kept hinf ?_ rfl⟩
    exact ⟨fun h => h.2, fun h => ⟨hargs, h⟩⟩
  | pow =>
    cases args with
    | nil => cases hv
    | cons x rest =>
      by_cases hx : (x == 0.0) = true
      · refine ⟨Decimal.notANumber, ?_, pole_kept hinf ⟨hargs, ?_⟩ (if_pos hx)⟩
        · rw [infiniteFault, if_pos hx]
          rfl
        · rcases eq_infinity_of_isInf hinf with h | h
          · exact Or.inr ⟨h, hx⟩
          · exact Or.inl h
      · refine ⟨Decimal.infinity, ?_, overflow_kept hinf ⟨fun h => ?_, fun h => ⟨hargs, Or.inl h⟩⟩
          (if_neg hx)⟩
        · rw [infiniteFault, if_neg hx]
          rfl
        · exact h.2.resolve_right fun hzero => hx hzero.2
  | _ => exact ⟨Decimal.notANumber, rfl, pole_kept hinf ⟨hargs, hinf⟩ rfl⟩

theorem checked_kept (hfloor : routine ≠ .floor) (hceil : routine ≠ .ceil)
    (hv : routine.call args = some value) :
    ∃ w, settled (checked routine args value) = some w ∧ Kept routine args value w := by
  rcases checked_cases routine args value with ⟨hargs, hinf, hfault⟩ | ⟨hkept, hsettled⟩
  · rw [hfault]
    exact infinite_kept hfloor hceil hv hargs hinf
  · refine ⟨value, hsettled, Or.inl ⟨fun hlost => hkept ?_, rfl⟩⟩
    unfold Lost at hlost
    split at hlost
    · exact absurd rfl hfloor
    · exact absurd rfl hceil
    · exact ⟨hlost.1, by rw [hlost.2]; rfl⟩
    · refine ⟨hlost.1, ?_⟩
      rcases hlost.2 with h | ⟨h, _⟩
      all_goals
        rw [h]
        rfl
    · exact hlost

theorem call_of_whole (h : routine = .floor ∨ routine = .ceil)
    (hv : routine.call args = some value) : call routine args = throughInteger value := by
  rcases args with _ | ⟨x, _ | ⟨y, rest⟩⟩
  all_goals
    rcases h with rfl | rfl
    all_goals
      cases hv
      try rfl

theorem call_of_checked (hfloor : routine ≠ .floor) (hceil : routine ≠ .ceil)
    (hv : routine.call args = some value) : call routine args = checked routine args value := by
  unfold call
  split
  · exact absurd rfl hfloor
  · exact absurd rfl hceil
  · cases hv
  · rw [hv]

theorem call_kept (hv : routine.call args = some value) :
    ∃ w, settled (call routine args) = some w ∧ Kept routine args value w := by
  by_cases hwhole : routine = .floor ∨ routine = .ceil
  · rw [call_of_whole hwhole hv]
    exact throughInteger_kept hwhole value
  · obtain ⟨hfloor, hceil⟩ := not_or.1 hwhole
    rw [call_of_checked hfloor hceil hv]
    exact checked_kept hfloor hceil hv

end Native

namespace IR.Module

theorem call_of_declaration {m : Module} {symbol : String} {routine : Routine}
    (hname : Routine.ofName? symbol = some routine)
    (hm : ∀ p, m.find? symbol = some p → p.body = none) (depth : Nat) (args : List Float) :
    m.call (depth + 1) symbol args = routine.call args := by
  rw [call]
  split
  · next block hfind =>
    cases hm _ hfind
  · rw [hname]

end IR.Module

/-- On every row of arguments that a builtin routine takes, compiled code gives the result of the
routine. The interpreter gives that result too unless it is lost, and then another one. -/
theorem native_results_agree_unless_lost {routine : Routine} (h : routine ∈ Native.builtins)
    {args : List Float} {value : Float} (hv : routine.call args = some value) :
    (∀ (m : IR.Module) (depth : Nat), (∀ p, m.find? routine.name = some p → p.body = none) →
      m.call (depth + 1) routine.name args = some value) ∧
    ∃ w, Code.callNative Native.standard routine.name args = .ok w ∧
      (w = value ↔ ¬ Native.Lost routine args value) ∧
      (Native.Lost routine args value → w = Native.substitute routine args value) := by
  have hname : Routine.ofName? routine.name = some routine := by
    cases routine with
    | _ => rfl
  refine ⟨fun m depth hm => ?_, ?_⟩
  · rw [IR.Module.call_of_declaration hname hm, hv]
  · obtain ⟨w, hw, hkept⟩ := Native.call_kept hv
    refine ⟨w, Native.callNative_of_settled h hw, ?_⟩
    rcases hkept with ⟨hkept, rfl⟩ | ⟨hlost, heq, hne⟩
    · exact ⟨iff_of_true rfl hkept, fun hlost => absurd hlost hkept⟩
    · exact ⟨iff_of_false hne (not_not.2 hlost), fun _ => heq⟩

/-- Rounding down negative infinity gives positive infinity. -/
theorem native_results_agree_unless_lost_negative_infinity :
    Native.Lost .floor [-Decimal.infinity] (-Decimal.infinity) ∧
      Code.callNative Native.standard "floor" [-Decimal.infinity] = .ok Decimal.infinity := by
  have hmem : Routine.floor ∈ Native.builtins := by decide
  have hvalue : Routine.floor.call [-Decimal.infinity] = some (-Decimal.infinity) := rfl
  obtain ⟨_, w, hw, _, hsubstitute⟩ := native_results_agree_unless_lost hmem hvalue
  have hlost : Native.Lost .floor [-Decimal.infinity] (-Decimal.infinity) := Or.inl rfl
  refine ⟨hlost, hw.trans ?_⟩
  rw [hsubstitute hlost]
  rfl

/-- The logarithm has a pole at zero, and the interpreter does not report it as one. -/
theorem logarithm_of_zero_loses_infinity :
    Routine.log.call [0.0] = some (-Decimal.infinity) ∧
      Code.callNative Native.standard "log" [0.0] = .ok Decimal.notANumber ∧
      Decimal.notANumber ≠ -Decimal.infinity :=
  ⟨rfl, rfl, notANumber_ne_neg⟩

end ScalarLang
