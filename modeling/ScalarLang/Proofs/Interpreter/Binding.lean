import ScalarLang.Proofs.Engine.History

/-!
# Bound code

Variables are lowered to argument positions and calls are bound by name when they run, so nothing in
the code itself keeps a position inside the arguments or the number of arguments of a call right.
Both hold of what is lowered, under the signatures of that moment. A name that was declared once
stays declared with as many parameters, so code that was bound under some signatures is bound under
all later ones, also where a function gets its body after the code that calls it.
-/
namespace ScalarLang

/-! ### Signatures over time -/

namespace Signatures

/-- Every name that is known earlier is known later, with as many parameters. -/
def Extends (later earlier : Signatures) : Prop :=
  ∀ name p, earlier.get? name = some p → ∃ q, later.get? name = some q ∧ q.arity = p.arity

theorem Extends.refl (signatures : Signatures) : signatures.Extends signatures :=
  fun _ p h => ⟨p, h, rfl⟩

theorem Extends.trans {last later earlier : Signatures} (h : last.Extends later)
    (h' : later.Extends earlier) : last.Extends earlier := by
  intro name p hp
  obtain ⟨q, hq, hqp⟩ := h' name p hp
  obtain ⟨r, hr, hrq⟩ := h name q hq
  exact ⟨r, hr, hrq.trans hqp⟩

theorem extends_put {signatures : Signatures} {p : Prototype}
    (h : ∀ known, signatures.get? p.name = some known → known.arity = p.arity) :
    Signatures.Extends (signatures.put p.name p) signatures := by
  intro name q hq
  by_cases hn : name = p.name
  · subst hn
    exact ⟨p, Ledger.get?_put_self signatures p.name p, (h q hq).symm⟩
  · exact ⟨q, by rw [Ledger.get?_put_of_ne signatures p hn, hq], rfl⟩

theorem resolve_eq_ok {signatures : Signatures} {callee : String} {count : Nat}
    {location : Option Location} {p : Prototype}
    (h : signatures.resolve callee count location = .ok p) :
    signatures.get? callee = some p ∧ p.arity = count := by
  unfold resolve at h
  split at h
  · cases h
  · next q hq =>
    split at h
    · next ha =>
      cases h
      exact ⟨hq, ha⟩
    · cases h

end Signatures

/-! ### Bound code -/

namespace Code

/-- Code whose variables lie among `count` arguments, and whose calls pass as many arguments as the
signature of the callee has parameters. -/
inductive Bound (signatures : Signatures) (count : Nat) : Code → Prop
  | number (value : Float) : Bound signatures count (.number value)
  | argument {index : Nat} (h : index < count) : Bound signatures count (.argument index)
  | operation (op : Operation) {lhs rhs : Code} (hl : Bound signatures count lhs)
      (hr : Bound signatures count rhs) : Bound signatures count (.operation op lhs rhs)
  | call {callee : String} {args : List Code} {p : Prototype}
      (hp : signatures.get? callee = some p) (ha : p.arity = args.length)
      (hargs : ∀ arg ∈ args, Bound signatures count arg) :
      Bound signatures count (.call callee args)

theorem Bound.extend {later earlier : Signatures} (he : later.Extends earlier) {count : Nat}
    {code : Code} (h : Bound earlier count code) : Bound later count code := by
  induction h with
  | number value => exact .number value
  | argument h => exact .argument h
  | operation op _ _ ihl ihr => exact .operation op ihl ihr
  | call hp ha _ ih =>
    obtain ⟨q, hq, hqa⟩ := he _ _ hp
    exact .call hq (hqa.trans ha) ih

theorem lastIndex?_lt {params : List String} {name : String} {index : Nat}
    (h : lastIndex? params name = some index) : index < params.length := by
  induction params generalizing index with
  | nil => simp [lastIndex?] at h
  | cons param rest ih =>
    simp only [lastIndex?] at h
    split at h
    · next found hfound =>
      cases h
      have hlt := ih hfound
      simp only [List.length_cons]
      omega
    · split at h
      · cases h
        simp
      · cases h

theorem lastIndex?_eq_none {params : List String} {name : String} :
    lastIndex? params name = none ↔ name ∉ params := by
  induction params with
  | nil => simp [lastIndex?]
  | cons param rest ih =>
    simp only [lastIndex?, List.mem_cons, not_or]
    cases hrest : lastIndex? rest name with
    | some index =>
      have hmem : ¬ name ∉ rest := by
        rw [← ih, hrest]
        simp
      simp [hmem]
    | none =>
      have hnot : name ∉ rest := ih.1 hrest
      by_cases hparam : param = name
      · simp [hparam]
      · simp [hparam, hnot, Ne.symm hparam]

/-- Lowering yields bound code: the induction is on the depth budget, which every part of an
expression is lowered with one level less of. -/
theorem bound_of_lower {scope : Scope} {depth : Nat} {e : Expr} {code : Code}
    (h : lower scope depth e = .ok code) :
    Bound scope.signatures scope.params.length code := by
  induction depth generalizing e code with
  | zero => simp [lower] at h
  | succ depth ih =>
    cases e with
    | number value location =>
      simp only [lower] at h
      cases h
      exact .number value
    | var name location =>
      simp only [lower] at h
      split at h
      · next index hi =>
        cases h
        exact .argument (lastIndex?_lt hi)
      · cases h
    | binary op lhs rhs location =>
      simp only [lower] at h
      obtain ⟨l, hl, h⟩ := bind_eq_ok.1 h
      obtain ⟨r, hr, h⟩ := bind_eq_ok.1 h
      split at h
      · next operation _ =>
        cases h
        exact .operation operation (ih hl) (ih hr)
      · cases h
    | call callee args location =>
      simp only [lower] at h
      obtain ⟨p, hp, h⟩ := bind_eq_ok.1 h
      obtain ⟨codes, hcodes, h⟩ := bind_eq_ok.1 h
      cases h
      have hall := forall₂_of_mapM hcodes
      have hcount : args.length = codes.length := hall.length_eq
      obtain ⟨hq, ha⟩ := Signatures.resolve_eq_ok hp
      refine .call hq (ha.trans hcount) ?_
      intro arg harg
      obtain ⟨i, hi, rfl⟩ := List.mem_iff_getElem.1 harg
      exact ih (hall.get (by omega) hi)

end Code

/-! ### Sound stores -/

/-- The wrapper of a bare expression has no signature, and every body is bound and kept under a name
whose signature has as many parameters. -/
structure Store.Sound (s : Store Code) : Prop where
  unnamed : s.signatures.get? "" = none
  bodies : ∀ name d, s.definitions.get? name = some d →
    ∃ p, s.signatures.get? name = some p ∧ p.arity = d.function.prototype.arity ∧
      d.body.Bound s.signatures d.function.prototype.arity

/-- A handle that can be executed: what it names is known with as many parameters, and what it holds
is bound. -/
def Handle.Sound (s : Store Code) : Handle Code → Prop
  | .declared requested _ =>
    requested.name = "" ∨ ∃ p, s.signatures.get? requested.name = some p ∧
      p.arity = requested.arity
  | .defined d => d.body.Bound s.signatures d.function.prototype.arity
  | .plain _ _ => False

theorem Handle.Sound.extend {s after : Store Code}
    (he : after.signatures.Extends s.signatures) {handle : Handle Code} (h : handle.Sound s) :
    handle.Sound after := by
  cases handle with
  | declared requested recorded =>
    rcases h with h | ⟨p, hp, ha⟩
    · exact Or.inl h
    · obtain ⟨q, hq, hqp⟩ := he _ _ hp
      exact Or.inr ⟨q, hq, hqp.trans ha⟩
  | defined d => exact Code.Bound.extend he h
  | plain name arity => exact h

namespace Store

theorem sound_empty : Sound {} where
  unnamed := rfl
  bodies := by
    intro name d h
    simp at h

theorem isAnonymous_iff (p : Prototype) : p.isAnonymous = true ↔ p.name = "" := by
  simp [Prototype.isAnonymous]

theorem record_extends {β : Type} {s : Store β} {p : Prototype}
    (h : p.isAnonymous = false →
      ∀ known, s.signatures.get? p.name = some known → known.arity = p.arity) :
    (s.record p).signatures.Extends s.signatures := by
  cases ha : p.isAnonymous with
  | true =>
    rw [record_of_anonymous ha]
    exact .refl _
  | false =>
    rw [record_of_named ha]
    exact Signatures.extends_put (h ha)

theorem sound_record {s : Store Code} (hs : s.Sound) {p : Prototype}
    (he : (s.record p).signatures.Extends s.signatures) : (s.record p).Sound where
  unnamed := by
    cases ha : p.isAnonymous with
    | true =>
      rw [record_of_anonymous ha]
      exact hs.unnamed
    | false =>
      have hne : "" ≠ p.name := by
        intro h
        have := (isAnonymous_iff p).2 h.symm
        simp [ha] at this
      rw [record_of_named ha]
      exact (Ledger.get?_put_of_ne s.signatures p hne).trans hs.unnamed
  bodies := by
    intro name d hd
    rw [record_definitions] at hd
    obtain ⟨p', hp', ha, hb⟩ := hs.bodies name d hd
    obtain ⟨q, hq, hqp⟩ := he name p' hp'
    exact ⟨q, hq, hqp.trans ha, hb.extend he⟩

theorem get?_record_self {β : Type} {s : Store β} {p : Prototype} (ha : p.isAnonymous = false) :
    (s.record p).signatures.get? p.name = some p := by
  rw [record_of_named ha]
  exact Ledger.get?_put_self s.signatures p.name p

theorem sound_keep {s : Store Code} (hs : s.Sound) {d : Definition Code}
    (hp : d.function.prototype.isAnonymous = false →
      s.signatures.get? d.function.name = some d.function.prototype)
    (hb : d.body.Bound s.signatures d.function.prototype.arity) : (s.keep d).Sound where
  unnamed := by
    rw [keep_signatures]
    exact hs.unnamed
  bodies := by
    intro name d' hd'
    rw [keep_signatures]
    rcases get?_keep_cases hd' with ⟨ha, rfl, rfl⟩ | hold
    · exact ⟨d'.function.prototype, hp ha, rfl, hb⟩
    · exact hs.bodies name d' hold

theorem enroll_arity {β : Type} {s enrolled : Store β} {p : Prototype}
    (h : s.enroll p = .ok enrolled) (ha : p.isAnonymous = false) (known : Prototype)
    (hk : s.signatures.get? p.name = some known) : known.arity = p.arity := by
  simp only [enroll, ha, Bool.false_eq_true, if_false, hk] at h
  split at h
  · cases h
  · split at h
    · next hka => exact hka
    · cases h

end Store
end ScalarLang
