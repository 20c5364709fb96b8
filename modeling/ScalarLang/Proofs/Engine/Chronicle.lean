import ScalarLang.Proofs.Interpreter.Binding

/-!
# Stores as chronicles

A store is what the accepted requests of its history make it. The definition of a name is the first
one that was accepted under it, with its prototype as the signature; a name without a definition has
the prototype of the first declaration that was accepted. Nothing else is in the store, and no later
request takes back or replaces what is there, except that a definition puts its own prototype in
place of the declared one.
-/
namespace ScalarLang

variable {β : Type}

abbrev Served (β : Type) := List (Request (Handle β) × Answer (Handle β))

namespace Request

/-- The name that a request declares or defines. -/
def name? : Request (Handle β) → Option String
  | .declare p => some p.name
  | .define f => some f.name
  | .execute _ => none

/-- The prototype that an accepted declaration brings under a name. -/
def declared? (name : String) : Request (Handle β) × Answer (Handle β) → Option Prototype
  | (.declare p, .lowered _) => if p.name = name then some p else none
  | _ => none

/-- The definition that an accepted request brings under a name. -/
def defined? (name : String) : Request (Handle β) × Answer (Handle β) → Option (Definition β)
  | (.define f, .lowered ⟨.defined d, _⟩) => if f.name = name then some d else none
  | _ => none

theorem declared?_of_refused {name : String} {request : Request (Handle β)}
    {answer : Answer (Handle β)} (h : ∀ l, answer ≠ .lowered l) :
    declared? name (request, answer) = none := by
  cases request with
  | declare p =>
    cases answer with
    | lowered l => exact absurd rfl (h l)
    | _ => rfl
  | _ => rfl

theorem defined?_of_refused {name : String} {request : Request (Handle β)}
    {answer : Answer (Handle β)} (h : ∀ l, answer ≠ .lowered l) :
    defined? name (request, answer) = none := by
  cases request with
  | define f =>
    cases answer with
    | lowered l => exact absurd rfl (h l)
    | _ => rfl
  | _ => rfl

end Request

namespace Store

/-- The definition that was accepted first under a name. -/
def firstDefinition (served : Served β) (name : String) : Option (Definition β) :=
  served.findSome? (Request.defined? name)

/-- The prototype that was accepted first as a declaration of a name. -/
def firstDeclaration (served : Served β) (name : String) : Option Prototype :=
  served.findSome? (Request.declared? name)

/-- A store holds what the requests that were served have brought, and nothing else: neither an
entry for the wrapper of a bare expression nor an open scope. -/
structure Chronicles (s : Store β) (served : Served β) : Prop where
  closed : s.scope = none
  unnamed : s.signatures.get? "" = none ∧ s.definitions.get? "" = none
  definitions : ∀ name, name ≠ "" → s.definitions.get? name = firstDefinition served name
  signatures : ∀ name, name ≠ "" → s.signatures.get? name =
    ((firstDefinition served name).map (·.function.prototype)).or (firstDeclaration served name)

theorem chronicles_empty : Chronicles ({} : Store β) [] where
  closed := rfl
  unnamed := ⟨rfl, rfl⟩
  definitions _ _ := rfl
  signatures _ _ := rfl

section Entries

variable {s : Store β} {p : Prototype} {d : Definition β} {name : String}

theorem get?_record_of_ne (h : name ≠ p.name) :
    (s.record p).signatures.get? name = s.signatures.get? name := by
  cases ha : p.isAnonymous with
  | true => rw [record_of_anonymous ha]
  | false =>
    rw [record_of_named ha]
    exact Ledger.get?_put_of_ne s.signatures p h

theorem get?_keep_self (ha : d.function.prototype.isAnonymous = false) :
    (s.keep d).definitions.get? d.function.name = some d := by
  simp [keep, ha]

theorem get?_keep_of_ne (h : name ≠ d.function.name) :
    (s.keep d).definitions.get? name = s.definitions.get? name := by
  cases ha : d.function.prototype.isAnonymous with
  | true => rw [keep_of_anonymous ha]
  | false =>
    simp only [keep, ha, Bool.false_eq_true, if_false]
    exact Ledger.get?_put_of_ne s.definitions d h

theorem name_ne_of_named (ha : p.isAnonymous = false) : p.name ≠ "" := by
  intro hname
  rw [(isAnonymous_iff p).2 hname] at ha
  cases ha

theorem named_of_ne (h : p.name ≠ "") : p.isAnonymous = false := by
  by_contra hanonymous
  exact h ((isAnonymous_iff p).1 (by simpa using hanonymous))

theorem enroll_undefined {enrolled : Store β} (h : s.enroll p = .ok enrolled)
    (ha : p.isAnonymous = false) : s.definitions.get? p.name = none := by
  cases hd : s.definitions.get? p.name with
  | none => rfl
  | some d =>
    have hdefined : s.isDefined p.name = true := by simp [isDefined, Ledger.has, hd]
    simp [enroll, ha, hdefined] at h

end Entries

/-! ### One request -/

variable {s after : Store β} {served : Served β}

theorem firstDefinition_append (served : Served β) (name : String)
    (entry : Request (Handle β) × Answer (Handle β)) :
    firstDefinition (served ++ [entry]) name =
      (firstDefinition served name).or (Request.defined? name entry) := by
  simp [firstDefinition, List.findSome?_append]

theorem firstDeclaration_append (served : Served β) (name : String)
    (entry : Request (Handle β) × Answer (Handle β)) :
    firstDeclaration (served ++ [entry]) name =
      (firstDeclaration served name).or (Request.declared? name entry) := by
  simp [firstDeclaration, List.findSome?_append]

/-- A request that is refused, or that is no request to lower, adds nothing to the chronicle. -/
theorem Chronicles.refused (h : s.Chronicles served) {request : Request (Handle β)}
    {answer : Answer (Handle β)} (hanswer : ∀ l, answer ≠ .lowered l) :
    s.Chronicles (served ++ [(request, answer)]) where
  closed := h.closed
  unnamed := h.unnamed
  definitions name hname := by
    rw [firstDefinition_append, Request.defined?_of_refused hanswer, Option.or_none,
      h.definitions name hname]
  signatures name hname := by
    rw [firstDefinition_append, Request.defined?_of_refused hanswer, Option.or_none,
      firstDeclaration_append, Request.declared?_of_refused hanswer, Option.or_none,
      h.signatures name hname]

theorem Chronicles.declare (h : s.Chronicles served) {p : Prototype} {l : Lowered (Handle β)}
    (hd : Store.declare p s = .ok l after) :
    after.Chronicles (served ++ [(.declare p, .lowered l)]) := by
  have hdefinition : ∀ name,
      firstDefinition (served ++ [(.declare p, .lowered l)]) name = firstDefinition served name :=
    fun name => (firstDefinition_append served name _).trans (Option.or_none ..)
  have hdeclaration : ∀ name, firstDeclaration (served ++ [(.declare p, .lowered l)]) name =
      (firstDeclaration served name).or (if p.name = name then some p else none) :=
    fun name => firstDeclaration_append served name _
  rcases declare_ok hd with ⟨known, hknown, _, _, rfl⟩ | ⟨hnew, _, rfl⟩
  · -- The name is known already, so an earlier entry of the chronicle stands before this one.
    refine ⟨h.closed, h.unnamed, fun name hname => ?_, fun name hname => ?_⟩
    · rw [hdefinition, h.definitions name hname]
    · have hold := h.signatures name hname
      rw [hdefinition, hdeclaration, ← Option.or_assoc, ← hold]
      by_cases hp : p.name = name
      · rw [← hp, hknown]
        rfl
      · rw [if_neg hp, Option.or_none]
  · refine ⟨(record_scope s p).trans h.closed, ⟨?_, ?_⟩, fun name hname => ?_,
      fun name hname => ?_⟩
    · cases ha : p.isAnonymous with
      | true =>
        rw [record_of_anonymous ha]
        exact h.unnamed.1
      | false => rw [get?_record_of_ne (name_ne_of_named ha).symm, h.unnamed.1]
    · rw [record_definitions, h.unnamed.2]
    · rw [record_definitions, hdefinition, h.definitions name hname]
    · have hold := h.signatures name hname
      rw [hdefinition, hdeclaration, ← Option.or_assoc, ← hold]
      by_cases hp : p.name = name
      · subst hp
        have ha := named_of_ne hname
        rw [get?_record_self ha, hnew, if_pos rfl]
        rfl
      · rw [get?_record_of_ne (Ne.symm hp), if_neg hp, Option.or_none]

theorem Chronicles.define {lower : Signatures → Function → Except Rejection β}
    (h : s.Chronicles served) {f : Function} {l : Lowered (Definition β)}
    (hd : Store.define lower f s = .ok l after) :
    after.Chronicles (served ++ [(.define f, .lowered (l.map .defined))]) := by
  obtain ⟨henroll, body, _, hhandle, rfl⟩ := define_ok h.closed hd
  have hentry : ∀ name, Request.defined? name (.define f, .lowered (l.map .defined)) =
      if f.name = name then some ⟨f, body⟩ else none := by
    intro name
    simp only [Lowered.map, hhandle, Request.defined?]
  have hdeclaration : ∀ name,
      firstDeclaration (served ++ [(.define f, .lowered (l.map .defined))]) name =
        firstDeclaration served name :=
    fun name => (firstDeclaration_append served name _).trans (Option.or_none ..)
  refine ⟨(keep_scope _ _).trans ((record_scope s f.prototype).trans h.closed), ?_, ?_, ?_⟩
  · cases ha : f.prototype.isAnonymous with
    | true =>
      rw [keep_of_anonymous (d := ⟨f, body⟩) ha, record_of_anonymous ha]
      exact h.unnamed
    | false =>
      have hne : "" ≠ f.name := (name_ne_of_named ha).symm
      rw [keep_signatures, get?_record_of_ne hne, get?_keep_of_ne (d := ⟨f, body⟩) hne,
        record_definitions]
      exact h.unnamed
  · intro name hname
    rw [firstDefinition_append, hentry, ← h.definitions name hname]
    by_cases hf : f.name = name
    · subst hf
      have ha := named_of_ne (p := f.prototype) hname
      rw [get?_keep_self (d := ⟨f, body⟩) ha, if_pos rfl,
        show s.definitions.get? f.name = none from enroll_undefined henroll ha]
      rfl
    · rw [get?_keep_of_ne (d := ⟨f, body⟩) (Ne.symm hf), record_definitions, if_neg hf,
        Option.or_none]
  · intro name hname
    rw [firstDefinition_append, hentry, hdeclaration, keep_signatures]
    by_cases hf : f.name = name
    · subst hf
      have ha := named_of_ne (p := f.prototype) hname
      have hnone : firstDefinition served f.name = none := by
        rw [← h.definitions f.name hname]
        exact enroll_undefined henroll ha
      rw [show (s.record f.prototype).signatures.get? f.name = some f.prototype from
        get?_record_self ha, hnone, if_pos rfl]
      rfl
    · rw [get?_record_of_ne (Ne.symm hf), if_neg hf, Option.or_none, h.signatures name hname]

/-! ### What a chronicle says of a store -/

/-- A store is true to the requests that were served. Apart from holding what they brought: whatever
is defined is declared, by exactly the prototype of its definition, which was the first to be
accepted, and what is only declared has the prototype that was declared first. -/
structure Faithful (s : Store β) (served : Served β) : Prop extends Chronicles s served where
  declared : ∀ name, s.isDefined name = true → s.isDeclared name = true
  ofDefinition : ∀ name d, s.definitions.get? name = some d →
    firstDefinition served name = some d ∧ s.signatures.get? name = some d.function.prototype
  ofDeclaration : ∀ name p, s.signatures.get? name = some p → s.definitions.get? name = none →
    firstDeclaration served name = some p

/-- The second store keeps what the first holds: names stay declared with as many parameters, and
bodies stay as they are. -/
structure Keeps (s after : Store β) : Prop where
  signatures : after.signatures.Extends s.signatures
  definitions : ∀ name d, s.definitions.get? name = some d → after.definitions.get? name = some d

theorem Chronicles.ofDefinition (h : s.Chronicles served) {name : String} {d : Definition β}
    (hd : s.definitions.get? name = some d) :
    firstDefinition served name = some d ∧ s.signatures.get? name = some d.function.prototype := by
  have hname : name ≠ "" := by
    rintro rfl
    rw [h.unnamed.2] at hd
    cases hd
  have hfirst : firstDefinition served name = some d := by rw [← h.definitions name hname, hd]
  refine ⟨hfirst, ?_⟩
  rw [h.signatures name hname, hfirst]
  rfl

theorem Chronicles.ofDeclaration (h : s.Chronicles served) {name : String} {p : Prototype}
    (hp : s.signatures.get? name = some p) (hd : s.definitions.get? name = none) :
    firstDeclaration served name = some p := by
  have hname : name ≠ "" := by
    rintro rfl
    rw [h.unnamed.1] at hp
    cases hp
  have hnone : firstDefinition served name = none := by rw [← h.definitions name hname, hd]
  rw [h.signatures name hname, hnone] at hp
  exact hp

theorem Chronicles.faithful (h : s.Chronicles served) : s.Faithful served where
  toChronicles := h
  declared name hdefined := by
    obtain ⟨d, hd⟩ := Option.isSome_iff_exists.1 hdefined
    rw [isDeclared, Ledger.has, (h.ofDefinition hd).2]
    rfl
  ofDefinition _ _ hd := h.ofDefinition hd
  ofDeclaration _ _ hp hd := h.ofDeclaration hp hd

theorem Keeps.refl (s : Store β) : s.Keeps s := ⟨.refl _, fun _ _ h => h⟩

theorem Keeps.trans {last : Store β} (h : s.Keeps after) (h' : after.Keeps last) :
    s.Keeps last :=
  ⟨h'.signatures.trans h.signatures,
    fun name d hd => h'.definitions name d (h.definitions name d hd)⟩

end Store

/-! ### Histories -/

namespace Engine

open Store (Chronicles Faithful Keeps)

variable {engine : Engine (Store β) (Handle β)}
  {lower : Signatures → Function → Except Rejection β} {s : Store β} {served : Served β}

theorem perform_chronicles (hengine : engine.OnStore lower) (h : s.Chronicles served)
    (request : Request (Handle β)) :
    (engine.perform s request).2.Chronicles
      (served ++ [(request, (engine.perform s request).1)]) := by
  rcases hengine.perform_cases h.closed request with
    ⟨answer, hr, hno⟩ | ⟨p, l, after, rfl, hd, hr⟩ | ⟨f, l, after, rfl, hd, hr⟩
  · rw [hr]
    exact h.refused hno
  · rw [hr]
    exact h.declare hd
  · rw [hr]
    exact h.define hd

theorem serve_chronicles (hengine : engine.OnStore lower) (h : s.Chronicles served)
    (requests : List (Request (Handle β))) :
    (engine.serve s requests).2.Chronicles
      (served ++ requests.zip (engine.serve s requests).1) := by
  induction requests generalizing s served with
  | nil =>
    rw [List.zip_nil_left, List.append_nil]
    exact h
  | cons request rest ih =>
    have hrest := ih (perform_chronicles hengine h request)
    rw [List.append_assoc] at hrest
    exact hrest

/-- A request keeps what is there and touches no name but its own. -/
theorem perform_keeps (hengine : engine.OnStore lower) (hs : s.Closed)
    (request : Request (Handle β)) :
    s.Keeps (engine.perform s request).2 ∧
      ∀ name, request.name? ≠ some name →
        (engine.perform s request).2.signatures.get? name = s.signatures.get? name ∧
        (engine.perform s request).2.definitions.get? name = s.definitions.get? name := by
  rcases hengine.perform_cases hs request with
    ⟨answer, hr, _⟩ | ⟨p, l, after, rfl, hd, hr⟩ | ⟨f, l, after, rfl, hd, hr⟩
  · rw [hr]
    exact ⟨.refl s, fun _ _ => ⟨rfl, rfl⟩⟩
  · rw [hr]
    rcases Store.declare_ok hd with ⟨_, _, _, _, rfl⟩ | ⟨hnew, _, rfl⟩
    · exact ⟨.refl _, fun _ _ => ⟨rfl, rfl⟩⟩
    · refine ⟨⟨Store.record_extends fun _ known hknown => ?_, fun name d hold => ?_⟩,
        fun name hname => ⟨Store.get?_record_of_ne ?_, by rw [Store.record_definitions]⟩⟩
      · rw [hnew] at hknown
        cases hknown
      · rw [Store.record_definitions, hold]
      · rintro rfl
        exact hname rfl
  · rw [hr]
    obtain ⟨henroll, body, _, _, rfl⟩ := Store.define_ok hs hd
    have hother : ∀ name, name ≠ f.name →
        ((s.record f.prototype).keep ⟨f, body⟩).definitions.get? name =
          s.definitions.get? name := by
      intro name hne
      rw [Store.get?_keep_of_ne (d := ⟨f, body⟩) hne, Store.record_definitions]
    refine ⟨⟨?_, fun name d hold => ?_⟩, fun name hname => ?_⟩
    · rw [Store.keep_signatures]
      exact Store.record_extends (Store.enroll_arity henroll)
    · cases ha : f.prototype.isAnonymous with
      | true =>
        rw [Store.keep_of_anonymous (d := ⟨f, body⟩) ha, Store.record_definitions, hold]
      | false =>
        have hne : name ≠ f.name := by
          rintro rfl
          have hundefined : s.definitions.get? f.name = none := Store.enroll_undefined henroll ha
          rw [hundefined] at hold
          cases hold
        rw [hother name hne, hold]
    · have hne : name ≠ f.name := by
        rintro rfl
        exact hname rfl
      rw [Store.keep_signatures]
      exact ⟨Store.get?_record_of_ne hne, hother name hne⟩

theorem serve_keeps (hengine : engine.OnStore lower) (hs : s.Closed)
    (requests : List (Request (Handle β))) : s.Keeps (engine.serve s requests).2 := by
  induction requests generalizing s with
  | nil => exact .refl s
  | cons request rest ih =>
    exact (perform_keeps hengine hs request).1.trans (ih (hengine.atomic.keeps s request hs))

/-- The store of an engine through all histories: it is true to what was served, it keeps what it
holds, and a request touches the entries of no name but its own. -/
structure Orderly (engine : Engine (Store β) (Handle β)) : Prop where
  faithful : ∀ history, (engine.serve {} history).2.Faithful
    (history.zip (engine.serve {} history).1)
  keeps : ∀ history later,
    (engine.serve {} history).2.Keeps (engine.serve (engine.serve {} history).2 later).2
  framed : ∀ history request name, request.name? ≠ some name →
    let s := (engine.serve {} history).2
    let after := (engine.perform s request).2
    after.signatures.get? name = s.signatures.get? name ∧
      after.definitions.get? name = s.definitions.get? name

theorem OnStore.orderly (hengine : engine.OnStore lower) : engine.Orderly := by
  have hclosed : ∀ history, (engine.serve {} history).2.Closed :=
    fun history => hengine.atomic.keeps_serve Store.closed_empty history
  refine ⟨fun history => ?_, fun history later => ?_, fun history request => ?_⟩
  · exact (serve_chronicles hengine Store.chronicles_empty history).faithful
  · exact serve_keeps hengine (hclosed history) later
  · exact (perform_keeps hengine (hclosed history) request).2

end Engine

/-- Both engines keep their store in order, whatever they are asked. -/
theorem stores_are_orderly (natives : Ledger String Native) (runtime : IR.Runtime) (depth : Nat) :
    (Interpreter.engine natives depth).Orderly ∧ (IR.engine depth runtime).Orderly :=
  ⟨(Interpreter.onStore natives depth).orderly, (IR.onStore runtime depth).orderly⟩

end ScalarLang
