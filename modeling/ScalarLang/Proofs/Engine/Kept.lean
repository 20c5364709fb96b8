import ScalarLang.Proofs.Engine.Agreement
import ScalarLang.Proofs.Interpreter.Binding

/-!
# What a store keeps of accepted definitions

Every body in a store was lowered from the function that is kept with it. The signatures of that
moment may have been fewer than the present ones, since functions can be declared, or get their
bodies, afterwards.
-/
namespace ScalarLang

variable {β : Type} {lower : Signatures → Function → Except Rejection β}

/-- A definition that was accepted under a name, seen from the present signatures. -/
structure Definition.Accepted (lower : Signatures → Function → Except Rejection β)
    (signatures : Signatures) (name : String) (d : Definition β) : Prop where
  named : d.function.name = name
  word : IsWord name
  regular : d.function.prototype.Regular
  lowered : ∃ earlier, lower earlier d.function = .ok d.body ∧ signatures.Extends earlier
  known : ∃ p, signatures.get? name = some p ∧ p.arity = d.function.prototype.arity

theorem Definition.Accepted.extend {later earlier : Signatures} {name : String} {d : Definition β}
    (he : later.Extends earlier) (h : d.Accepted lower earlier name) :
    d.Accepted lower later name where
  named := h.named
  word := h.word
  regular := h.regular
  lowered := by
    obtain ⟨first, hfirst, hext⟩ := h.lowered
    exact ⟨first, hfirst, he.trans hext⟩
  known := by
    obtain ⟨p, hp, ha⟩ := h.known
    obtain ⟨q, hq, hqp⟩ := he name p hp
    exact ⟨q, hq, hqp.trans ha⟩

theorem Definition.Accepted.mono {other : Signatures → Function → Except Rejection β}
    (hother : ∀ signatures f body, lower signatures f = .ok body → other signatures f = .ok body)
    {signatures : Signatures} {name : String} {d : Definition β}
    (h : d.Accepted lower signatures name) : d.Accepted other signatures name where
  named := h.named
  word := h.word
  regular := h.regular
  lowered := by
    obtain ⟨earlier, hbody, hext⟩ := h.lowered
    exact ⟨earlier, hother _ _ _ hbody, hext⟩
  known := h.known

namespace Store

/-- Every definition in the store was accepted under its name. -/
def Kept (lower : Signatures → Function → Except Rejection β) (s : Store β) : Prop :=
  ∀ name d, s.definitions.get? name = some d → d.Accepted lower s.signatures name

theorem kept_empty : Kept lower ({} : Store β) := by
  intro name d hd
  simp at hd

variable {s : Store β}

theorem Kept.mono {other : Signatures → Function → Except Rejection β}
    (hother : ∀ signatures f body, lower signatures f = .ok body → other signatures f = .ok body)
    (h : s.Kept lower) : s.Kept other :=
  fun name d hd => (h name d hd).mono hother

theorem Kept.record (h : s.Kept lower) {p : Prototype}
    (he : (s.record p).signatures.Extends s.signatures) : (s.record p).Kept lower := by
  intro name d hd
  rw [record_definitions] at hd
  exact (h name d hd).extend he

theorem Kept.keep (h : s.Kept lower) {d : Definition β}
    (hd : d.function.prototype.isAnonymous = false →
      d.Accepted lower s.signatures d.function.name) : (s.keep d).Kept lower := by
  intro name other hother
  rw [keep_signatures]
  rcases get?_keep_cases hother with ⟨ha, rfl, rfl⟩ | hold
  · exact hd ha
  · exact h name other hold

theorem Kept.declare (h : s.Kept lower) {p : Prototype} {l : Lowered (Handle β)} {after : Store β}
    (hd : Store.declare p s = .ok l after) : after.Kept lower := by
  rcases declare_ok hd with ⟨known, _, _, _, rfl⟩ | ⟨hnew, _, rfl⟩
  · exact h
  · refine h.record (record_extends fun _ known hknown => ?_)
    rw [hnew] at hknown
    cases hknown

theorem Kept.define (h : s.Kept lower) (hs : s.Closed) {f : Function}
    (hf : f.prototype.Regular) {l : Lowered (Definition β)} {after : Store β}
    (hd : Store.define lower f s = .ok l after) : after.Kept lower := by
  obtain ⟨henroll, body, hbody, _, rfl⟩ := define_ok hs hd
  have he : (s.record f.prototype).signatures.Extends s.signatures :=
    record_extends (enroll_arity henroll)
  refine (h.record he).keep fun ha => ?_
  have hword : IsWord f.name := by
    rcases hf.name with hword | ⟨hempty, _⟩
    · exact hword
    · have hanon := (isAnonymous_iff f.prototype).2 hempty
      rw [ha] at hanon
      cases hanon
  exact ⟨rfl, hword, hf, ⟨_, hbody, .refl _⟩, ⟨f.prototype, get?_record_self ha, rfl⟩⟩

end Store

theorem Request.regular_of_forms {η : Type} {forms : List Form}
    (hforms : ∀ form ∈ forms, form.prototype.Regular) :
    ∀ f, (.define f : Request η) ∈ forms.map .ofForm → f.prototype.Regular := by
  intro f hf
  obtain ⟨form, hform, hrequest⟩ := List.mem_map.1 hf
  cases form with
  | external p => cases hrequest
  | function g =>
    cases hrequest
    exact hforms _ hform

namespace Engine

variable {engine : Engine (Store β) (Handle β)} {s : Store β}

theorem perform_kept (hengine : engine.OnStore lower) (h : s.Kept lower) (hs : s.Closed)
    {request : Request (Handle β)} (hregular : ∀ f, request = .define f → f.prototype.Regular) :
    (engine.perform s request).2.Kept lower := by
  rcases hengine.perform_cases hs request with
    ⟨answer, hr, _⟩ | ⟨p, l, after, _, hd, hr⟩ | ⟨f, l, after, hrequest, hd, hr⟩
  · rw [hr]
    exact h
  · rw [hr]
    exact h.declare hd
  · rw [hr]
    exact h.define hs (hregular f hrequest) hd

theorem serve_kept (hengine : engine.OnStore lower) (h : s.Kept lower) (hs : s.Closed)
    {requests : List (Request (Handle β))}
    (hregular : ∀ f, .define f ∈ requests → f.prototype.Regular) :
    (engine.serve s requests).2.Kept lower := by
  induction requests generalizing s with
  | nil => exact h
  | cons request rest ih =>
    have hfirst : (engine.perform s request).2.Kept lower :=
      perform_kept hengine h hs fun f hf => hregular f (hf ▸ List.mem_cons_self ..)
    rw [serve_cons]
    exact ih hfirst (hengine.atomic.keeps s _ hs)
      fun f hf => hregular f (List.mem_cons_of_mem _ hf)

end Engine
end ScalarLang
