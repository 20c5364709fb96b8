import ScalarLang.Proofs.Interpreter.Binding

/-!
# Lowered code does not go wrong

Every history of requests keeps the store sound and only extends the signatures, so all handles that
were returned on the way stay sound. Running what they hold never looks for an argument that is not
there and enters every body with as many arguments as its prototype has parameters.
-/
namespace ScalarLang

/-! ### Histories keep the store sound -/

namespace Interpreter

variable (natives : Ledger String Native) (depth : Nat)

/-- What one request keeps: a sound store, all signatures, and a sound handle if there is one. -/
theorem perform_sound {s : Store Code} (hs : s.Sound) (hc : s.Closed)
    (request : Request (Handle Code)) :
    let r := (engine natives depth).perform s request
    r.2.Sound ∧ r.2.signatures.Extends s.signatures ∧
      ∀ l, r.1 = .lowered l → l.handle.Sound r.2 := by
  intro r
  rcases (onStore natives depth).perform_cases hc request with
    ⟨answer, hr, hno⟩ | ⟨p, l, after, _, hd, hr⟩ | ⟨f, l, after, _, hd, hr⟩
  · simp only [r, hr]
    exact ⟨hs, .refl _, fun l hl => absurd hl (hno l)⟩
  · simp only [r, hr]
    rcases Store.declare_ok hd with ⟨known, hk, ha, hl, rfl⟩ | ⟨hk, hl, rfl⟩
    · refine ⟨hs, .refl _, fun l' h => ?_⟩
      cases h
      rw [hl]
      exact Or.inr ⟨known, hk, ha⟩
    · have he : (s.record p).signatures.Extends s.signatures :=
        Store.record_extends fun _ known hknown => by simp [hk] at hknown
      refine ⟨Store.sound_record hs he, he, fun l' h => ?_⟩
      cases h
      rw [hl]
      cases ha : p.isAnonymous with
      | true => exact Or.inl ((Store.isAnonymous_iff p).1 ha)
      | false => exact Or.inr ⟨p, Store.get?_record_self ha, rfl⟩
  · simp only [r, hr]
    obtain ⟨henroll, body, hbody, hl, rfl⟩ := Store.define_ok hc hd
    have he : (s.record f.prototype).signatures.Extends s.signatures :=
      Store.record_extends (Store.enroll_arity henroll)
    have hbound : body.Bound (s.record f.prototype).signatures f.prototype.arity :=
      Code.bound_of_lower hbody
    rw [Store.keep_signatures]
    refine ⟨?_, he, fun l' h => ?_⟩
    · exact Store.sound_keep (Store.sound_record hs he) (fun ha => Store.get?_record_self ha) hbound
    · cases h
      simp only [Lowered.map, hl, Handle.Sound, Store.keep_signatures]
      exact hbound

end Interpreter

/-- The handles among answers. -/
def Answer.handles {η : Type} : List (Answer η) → List η
  | [] => []
  | .lowered l :: rest => l.handle :: handles rest
  | _ :: rest => handles rest

theorem Answer.handles_cons {η : Type} {answer : Answer η} {rest : List (Answer η)} {handle : η}
    (h : handle ∈ handles (answer :: rest)) :
    (∃ l, answer = .lowered l ∧ l.handle = handle) ∨ handle ∈ handles rest := by
  cases answer with
  | lowered l =>
    rcases List.mem_cons.1 h with rfl | h
    · exact Or.inl ⟨l, rfl, rfl⟩
    · exact Or.inr h
  | value x => exact Or.inr h
  | rejected rejection => exact Or.inr h
  | trapped trap => exact Or.inr h

namespace Interpreter

variable (natives : Ledger String Native) (depth : Nat)

theorem serve_sound {s : Store Code} (hs : s.Sound) (hc : s.Closed)
    (requests : List (Request (Handle Code))) :
    let r := (engine natives depth).serve s requests
    r.2.Sound ∧ r.2.signatures.Extends s.signatures ∧
      ∀ handle ∈ Answer.handles r.1, handle.Sound r.2 := by
  induction requests generalizing s with
  | nil => exact ⟨hs, .refl _, fun handle h => by cases h⟩
  | cons request rest ih =>
    obtain ⟨hsound, hext, hhandle⟩ := perform_sound natives depth hs hc request
    obtain ⟨hsound', hext', hhandles⟩ := ih hsound ((onStore natives depth).atomic.keeps s request hc)
    refine ⟨hsound', hext'.trans hext, fun handle h => ?_⟩
    rcases Answer.handles_cons h with ⟨l, hl, rfl⟩ | h
    · exact (hhandle l hl).extend hext'
    · exact hhandles handle h

end Interpreter

/-! ### Running bound code -/

/-- How the interpreter may fail on sound code: a name has neither a body nor a native function, a
native function does not take that many arguments or raises a fault of its own, or the depth budget
is used up. -/
inductive Trap.Permitted (natives : Ledger String Native)
    (definitions : Ledger String (Definition Code)) : Trap → Prop
  | unresolved {name : String} (hd : definitions.get? name = none)
      (hn : natives.get? name = none) : Permitted natives definitions (.unresolved name .natives)
  | refused {name : String} {native : Native} {args : List Float}
      (hd : definitions.get? name = none) (hn : natives.get? name = some native)
      (hr : native args = .error .argumentCount) :
      Permitted natives definitions (.refused name args.length)
  | raised {name : String} {native : Native} {args : List Float} {what : String}
      (hd : definitions.get? name = none) (hn : natives.get? name = some native)
      (hr : native args = .error (.other what)) : Permitted natives definitions (.raised what)
  | depth : Permitted natives definitions .depth

namespace Code

variable {natives : Ledger String Native}

theorem callNative_permitted {definitions : Ledger String (Definition Code)} {name : String}
    {args : List Float} {trap : Trap} (hd : definitions.get? name = none)
    (h : callNative natives name args = .error trap) : trap.Permitted natives definitions := by
  unfold callNative at h
  split at h
  · next hn =>
    cases h
    exact .unresolved hd hn
  · next native hn =>
    split at h
    · cases h
    · next hr =>
      cases h
      exact .refused hd hn hr
    · cases h
    · cases h
    · next what hr =>
      cases h
      exact .raised hd hn hr

/-- A call of bound code that is entered has as many values as the body has parameters. -/
theorem arity_of_call {s : Store Code} (hs : s.Sound) {callee : String} {params : List Code}
    {count : Nat} (hb : Bound s.signatures count (.call callee params)) {values : List Float}
    (hv : params.length = values.length) {d : Definition Code}
    (hd : s.definitions.get? callee = some d) :
    values.length = d.function.prototype.arity := by
  cases hb with
  | call hp ha _ =>
    obtain ⟨p, hp', hpd, _⟩ := hs.bodies callee d hd
    rw [hp] at hp'
    cases hp'
    omega

theorem Bound.body {s : Store Code} (hs : s.Sound) {callee : String} {d : Definition Code}
    (hd : s.definitions.get? callee = some d) {values : List Float}
    (hv : values.length = d.function.prototype.arity) :
    Bound s.signatures values.length d.body := by
  obtain ⟨_, _, _, hb⟩ := hs.bodies callee d hd
  rw [hv]
  exact hb

theorem run_permitted {s : Store Code} (hs : s.Sound) {depth : Nat} {code : Code}
    {args : List Float} {trap : Trap} (hb : Bound s.signatures args.length code)
    (h : run natives s.definitions depth code args = .error trap) :
    trap.Permitted natives s.definitions := by
  induction depth generalizing code args with
  | zero =>
    simp only [run] at h
    cases h
    exact .depth
  | succ depth ih =>
    cases hb with
    | number value => simp [run] at h
    | argument hi => simp [run, List.getElem?_eq_getElem hi] at h
    | operation op hl hr =>
      simp only [run] at h
      rcases bind_eq_error h with h | ⟨x, _, h⟩
      · exact ih hl h
      · rcases bind_eq_error h with h | ⟨y, _, h⟩
        · exact ih hr h
        · cases h
    | @call callee params p hp ha hparams =>
      simp only [run] at h
      rcases bind_eq_error h with h | ⟨values, hvalues, h⟩
      · obtain ⟨param, hmem, hparam⟩ := mem_of_mapM_error h
        exact ih (hparams param hmem) hparam
      · have hcount := (forall₂_of_mapM hvalues).length_eq
        split at h
        · next d hd =>
          have harity := arity_of_call hs (.call hp ha hparams) hcount hd
          exact ih (Bound.body hs hd harity) h
        · next hd => exact callNative_permitted hd h

/-- Running `code` on `args` can enter the body of `d` on `values`: at a call whose arguments have
these values, in a part of the code, or inside a body that is entered. -/
inductive Enters (natives : Ledger String Native)
    (definitions : Ledger String (Definition Code)) :
    Nat → Code → List Float → Definition Code → List Float → Prop
  | lhs {depth : Nat} {op : Operation} {lhs rhs : Code} {args values : List Float}
      {d : Definition Code} (h : Enters natives definitions depth lhs args d values) :
      Enters natives definitions (depth + 1) (.operation op lhs rhs) args d values
  | rhs {depth : Nat} {op : Operation} {lhs rhs : Code} {args values : List Float}
      {d : Definition Code} (h : Enters natives definitions depth rhs args d values) :
      Enters natives definitions (depth + 1) (.operation op lhs rhs) args d values
  | param {depth : Nat} {callee : String} {params : List Code} {param : Code}
      {args values : List Float} {d : Definition Code} (hp : param ∈ params)
      (h : Enters natives definitions depth param args d values) :
      Enters natives definitions (depth + 1) (.call callee params) args d values
  | call {depth : Nat} {callee : String} {params : List Code} {args values : List Float}
      {d : Definition Code}
      (hv : params.mapM (fun param => run natives definitions depth param args) = .ok values)
      (hd : definitions.get? callee = some d) :
      Enters natives definitions (depth + 1) (.call callee params) args d values
  | body {depth : Nat} {callee : String} {params : List Code} {args values inner : List Float}
      {d e : Definition Code}
      (hv : params.mapM (fun param => run natives definitions depth param args) = .ok values)
      (hd : definitions.get? callee = some d)
      (h : Enters natives definitions depth d.body values e inner) :
      Enters natives definitions (depth + 1) (.call callee params) args e inner

theorem Enters.arity_eq {s : Store Code} (hs : s.Sound) {depth : Nat} {code : Code}
    {args values : List Float} {d : Definition Code}
    (h : Enters natives s.definitions depth code args d values)
    (hb : Bound s.signatures args.length code) :
    values.length = d.function.prototype.arity := by
  induction h with
  | lhs _ ih =>
    cases hb with
    | operation _ hl _ => exact ih hl
  | rhs _ ih =>
    cases hb with
    | operation _ _ hr => exact ih hr
  | param hp _ ih =>
    cases hb with
    | call _ _ hparams => exact ih (hparams _ hp)
  | call hv hd => exact arity_of_call hs hb (forall₂_of_mapM hv).length_eq hd
  | body hv hd _ ih =>
    have harity := arity_of_call hs hb (forall₂_of_mapM hv).length_eq hd
    exact ih (Bound.body hs hd harity)

end Code

/-! ### Executing what was returned -/

namespace Interpreter

/-- The code that a handle without parameters is executed by, and the depth budget for it. -/
def started (depth : Nat) : Handle Code → Nat × Code
  | .defined d => (depth, d.body)
  | handle => (depth + 1, .call handle.name [])

theorem execute_eq_run (natives : Ledger String Native) (depth : Nat) (s : Store Code)
    {handle : Handle Code} (hzero : handle.arity = 0) :
    execute natives depth s handle =
      Code.run natives s.definitions (started depth handle).1 (started depth handle).2 [] := by
  cases handle with
  | declared requested recorded => simp [execute, hzero, started]
  | defined d => simp [execute, hzero, started]
  | plain name arity => simp [execute, hzero, started]

theorem no_body_unnamed {s : Store Code} (hs : s.Sound) : s.definitions.get? "" = none := by
  cases hd : s.definitions.get? "" with
  | none => rfl
  | some d =>
    obtain ⟨p, hp, _⟩ := hs.bodies "" d hd
    rw [hs.unnamed] at hp
    cases hp

/-- A sound handle starts bound code, or calls the wrapper of a bare expression, which has no
body. -/
theorem started_cases {s : Store Code} {handle : Handle Code} (depth : Nat)
    (hh : handle.Sound s) (hzero : handle.arity = 0) :
    Code.Bound s.signatures ([] : List Float).length (started depth handle).2 ∨
      (started depth handle) = (depth + 1, .call "" []) := by
  cases handle with
  | declared requested recorded =>
    rcases hh with hname | ⟨p, hp, ha⟩
    · exact Or.inr (by simp [started, Handle.name, hname])
    · have hcount : p.arity = 0 := by
        have hz : (requested.arity : Int) = 0 := hzero
        omega
      exact Or.inl (.call hp (by simpa using hcount) (by simp))
  | defined d =>
    have hcount : d.function.prototype.arity = 0 := by
      have hz : (d.function.prototype.arity : Int) = 0 := hzero
      omega
    have hb : d.body.Bound s.signatures d.function.prototype.arity := hh
    rw [hcount] at hb
    exact Or.inl hb
  | plain name arity => exact absurd hh id

/-- Whatever requests were served, executing a handle without parameters that was returned for one
of them gives a value or fails in one of the permitted ways, and every body that is entered on the
way gets as many arguments as its prototype has parameters. -/
theorem execute_never_goes_wrong (natives : Ledger String Native) (depth : Nat)
    (history : List (Request (Handle Code))) {handle : Handle Code}
    (hreturned : handle ∈ Answer.handles ((engine natives depth).serve {} history).1)
    (hzero : handle.arity = 0) :
    let s := ((engine natives depth).serve {} history).2
    ((∃ x, (engine natives depth).execute handle s = .ok x s) ∨
      ∃ trap, (engine natives depth).execute handle s = .error trap s ∧
        trap.Permitted natives s.definitions) ∧
    ∀ d values, Code.Enters natives s.definitions (started depth handle).1
      (started depth handle).2 [] d values → values.length = d.function.prototype.arity := by
  intro s
  obtain ⟨hs, _, hhandles⟩ :=
    serve_sound natives depth Store.sound_empty Store.closed_empty history
  have hh : handle.Sound s := hhandles handle hreturned
  have hnone : s.definitions.get? "" = none := no_body_unnamed hs
  constructor
  · change (∃ x, (ofExcept (execute natives depth s handle) : EStateM Trap (Store Code) Float) s =
        .ok x s) ∨
      ∃ trap, (ofExcept (execute natives depth s handle) : EStateM Trap (Store Code) Float) s =
        .error trap s ∧ trap.Permitted natives s.definitions
    rcases ofExcept_cases (execute natives depth s handle) s with ⟨x, _, hx⟩ | ⟨trap, ht, hx⟩
    · exact Or.inl ⟨x, hx⟩
    · refine Or.inr ⟨trap, hx, ?_⟩
      rw [execute_eq_run natives depth s hzero] at ht
      rcases started_cases depth hh hzero with hb | hstart
      · exact Code.run_permitted hs hb ht
      · rw [hstart] at ht
        simp only [Code.run, hnone] at ht
        exact Code.callNative_permitted hnone ht
  · intro d values hen
    rcases started_cases depth hh hzero with hb | hstart
    · exact hen.arity_eq hs hb
    · rw [hstart] at hen
      cases hen with
      | param hp _ => cases hp
      | call _ hd => simp [hnone] at hd
      | body _ hd _ => simp [hnone] at hd

/-- A function that calls a declared one, which gets its body only afterwards. -/
theorem execute_never_goes_wrong_late_body :
    let f : Prototype := ⟨"f", ["x"], none⟩
    let g : Function := ⟨⟨"g", [], none⟩, .call "f" [.number 1.0 none] none⟩
    let history : List (Request (Handle Code)) :=
      [.declare f, .define g, .define ⟨f, .var "x" none⟩]
    let s := ((engine [] 9).serve {} history).2
    let handle : Handle Code := .defined ⟨g, .call "f" [.number 1.0]⟩
    (handle ∈ Answer.handles ((engine [] 9).serve {} history).1 ∧ handle.arity = 0) ∧
    ((∃ x, (engine [] 9).execute handle s = .ok x s) ∨
      ∃ trap, (engine [] 9).execute handle s = .error trap s ∧
        trap.Permitted [] s.definitions) := by
  intro f g history s handle
  have hreturned : handle ∈ Answer.handles ((engine [] 9).serve {} history).1 :=
    List.Mem.tail _ (List.Mem.head _)
  exact ⟨⟨hreturned, rfl⟩, (execute_never_goes_wrong [] 9 history hreturned rfl).1⟩

end Interpreter
end ScalarLang
