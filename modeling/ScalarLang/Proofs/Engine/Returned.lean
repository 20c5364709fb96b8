import ScalarLang.Proofs.Interpreter.Order
import ScalarLang.Proofs.Interpreter.Safety

/-!
# What an engine has returned

Every body in a store was returned when it was defined. If lowering accepts under all later
signatures what it accepts under some, each body that was returned is what its function is lowered
to under the signatures of the store, whatever was requested since.
-/
namespace ScalarLang

variable {β : Type}

theorem Answer.mem_handles {η : Type} {answers : List (Answer η)} {l : Lowered η}
    (h : .lowered l ∈ answers) : l.handle ∈ handles answers := by
  induction answers with
  | nil => cases h
  | cons answer rest ih =>
    rcases List.mem_cons.1 h with rfl | h
    · exact List.mem_cons_self ..
    · have hrest := ih h
      cases answer with
      | lowered l' => exact List.mem_cons_of_mem _ hrest
      | value x => exact hrest
      | rejected rejection => exact hrest
      | trapped trap => exact hrest

theorem Request.answer_of_defined? {name : String}
    {served : Request (Handle β) × Answer (Handle β)} {d : Definition β}
    (h : Request.defined? name served = some d) : ∃ log, served.2 = .lowered ⟨.defined d, log⟩ := by
  unfold Request.defined? at h
  split at h
  · next f d' log =>
    split at h
    · cases h
      exact ⟨log, rfl⟩
    · cases h
  · cases h

/-- What is in a store was returned when it was defined. -/
theorem Store.Chronicles.returned {s : Store β} {requests : List (Request (Handle β))}
    {answers : List (Answer (Handle β))} (h : s.Chronicles (requests.zip answers)) {name : String}
    {d : Definition β} (hd : s.definitions.get? name = some d) :
    .defined d ∈ Answer.handles answers := by
  have hfirst := (h.ofDefinition hd).1
  obtain ⟨⟨request, answer⟩, hserved, hdefined⟩ := List.exists_of_findSome?_eq_some hfirst
  obtain ⟨log, rfl⟩ := Request.answer_of_defined? hdefined
  exact Answer.mem_handles (List.of_mem_zip hserved).2

/-- A definition that was returned, seen from a later store: the signatures that it was lowered
under had its own, and a function with a name has no other body. -/
structure Definition.Returned (lower : Signatures → Function → Except Rejection β) (s : Store β)
    (d : Definition β) : Prop where
  lowered : ∃ earlier, lower earlier d.function = .ok d.body ∧ s.signatures.Extends earlier ∧
    (d.function.prototype.isAnonymous = false →
      earlier.get? d.function.name = some d.function.prototype)
  kept : d.function.prototype.isAnonymous = false → s.definitions.get? d.function.name = some d

theorem Definition.Returned.mono {lower other : Signatures → Function → Except Rejection β}
    (hother : ∀ signatures f body, lower signatures f = .ok body → other signatures f = .ok body)
    {s : Store β} {d : Definition β} (h : d.Returned lower s) : d.Returned other s where
  lowered := by
    obtain ⟨earlier, hbody, hextends, hown⟩ := h.lowered
    exact ⟨earlier, hother _ _ _ hbody, hextends, hown⟩
  kept := h.kept

theorem Definition.Returned.keeps {lower : Signatures → Function → Except Rejection β}
    {s after : Store β} {d : Definition β} (h : d.Returned lower s) (hkeeps : s.Keeps after) :
    d.Returned lower after where
  lowered := by
    obtain ⟨earlier, hbody, hextends, hown⟩ := h.lowered
    exact ⟨earlier, hbody, hkeeps.signatures.trans hextends, hown⟩
  kept hnamed := hkeeps.definitions _ _ (h.kept hnamed)

/-- Each body in a store is what its function is lowered to under the signatures of the store, and
the prototype of the function is one of these. -/
structure Store.Current (lower : Signatures → Function → Except Rejection β) (s : Store β) :
    Prop where
  lowered : ∀ name d, s.definitions.get? name = some d →
    lower s.signatures d.function = .ok d.body
  known : ∀ name d, s.definitions.get? name = some d →
    s.signatures.get? name = some d.function.prototype

namespace Engine

variable {engine : Engine (Store β) (Handle β)}
  {lower : Signatures → Function → Except Rejection β} {s : Store β}

/-- A definition is returned for its function, and its body is kept if that has a name. -/
theorem perform_returned (hengine : engine.OnStore lower) (hc : s.Closed)
    {request : Request (Handle β)} {l : Lowered (Handle β)} {d : Definition β}
    (hl : (engine.perform s request).1 = .lowered l) (hd : l.handle = .defined d) :
    request = .define d.function ∧ d.Returned lower (engine.perform s request).2 := by
  rcases hengine.perform_cases hc request with
    ⟨answer, hr, hno⟩ | ⟨p, l', after, _, hdeclare, hr⟩ | ⟨f, l', after, hrequest, hdefine, hr⟩
  · rw [hr] at hl
    exact absurd hl (hno l)
  · rw [hr] at hl
    cases hl
    rcases Store.declare_ok hdeclare with ⟨_, _, _, hl', _⟩ | ⟨_, hl', _⟩
    · rw [hd] at hl'
      cases hl'
    · rw [hd] at hl'
      cases hl'
  · obtain ⟨_, body, hbody, hl', rfl⟩ := Store.define_ok hc hdefine
    rw [hr] at hl ⊢
    cases hl
    obtain rfl : l'.handle = d := by simpa [Lowered.map] using hd
    rw [hl']
    refine ⟨hrequest, ⟨_, hbody, ?_, Store.get?_record_self⟩, Store.get?_keep_self⟩
    rw [Store.keep_signatures]
    exact .refl _

theorem serve_returned (hengine : engine.OnStore lower) (hc : s.Closed)
    {requests : List (Request (Handle β))} {d : Definition β}
    (h : .defined d ∈ Answer.handles (engine.serve s requests).1) :
    .define d.function ∈ requests ∧ d.Returned lower (engine.serve s requests).2 := by
  induction requests generalizing s with
  | nil => cases h
  | cons request rest ih =>
    rw [serve_cons] at h ⊢
    have hnext := hengine.atomic.keeps s request hc
    rcases Answer.handles_cons h with ⟨l, hl, hd⟩ | h
    · obtain ⟨hrequest, hreturned⟩ := perform_returned hengine hc hl hd
      refine ⟨hrequest ▸ List.mem_cons_self .., hreturned.keeps ?_⟩
      exact serve_keeps hengine hnext rest
    · obtain ⟨hrequest, hreturned⟩ := ih hnext h
      exact ⟨List.mem_cons_of_mem _ hrequest, hreturned⟩

theorem serve_lowered (hengine : engine.OnStore lower) (hlower : Store.Lasting lower)
    (hc : s.Closed) {requests : List (Request (Handle β))} {d : Definition β}
    (h : .defined d ∈ Answer.handles (engine.serve s requests).1) :
    lower (engine.serve s requests).2.signatures d.function = .ok d.body := by
  obtain ⟨earlier, hbody, hextends, _⟩ := (serve_returned hengine hc h).2.lowered
  exact hlower hextends hbody

theorem serve_current (hengine : engine.OnStore lower) (hlower : Store.Lasting lower)
    (history : List (Request (Handle β))) : (engine.serve {} history).2.Current lower := by
  have hchronicles := serve_chronicles hengine Store.chronicles_empty history
  refine ⟨fun name d hd => ?_, fun name d hd => (hchronicles.ofDefinition hd).2⟩
  exact serve_lowered hengine hlower Store.closed_empty (hchronicles.returned hd)

end Engine
end ScalarLang
