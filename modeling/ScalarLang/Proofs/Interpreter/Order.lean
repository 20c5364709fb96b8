import ScalarLang.Proofs.Engine.Agreement
import ScalarLang.Proofs.Engine.Chronicle

/-!
# The order of forms

A caller can be lowered before its callee has a body, and a definition puts its prototype in the
place of a declared one, so two orders of the same forms pass through different stores. What they
end with is the same. Lowering asks signatures for nothing but arities, and what it accepts it
accepts under all later signatures with the same code; so each body in a store is what its function
is lowered to under the signatures of the store itself (`Holds`), and that does not mention the
order any more.
-/
namespace ScalarLang

/-! ### Lowering under other signatures -/

namespace Signatures

def SameArities (first second : Signatures) : Prop :=
  ∀ name, (first.get? name).map Prototype.arity = (second.get? name).map Prototype.arity

theorem Extends.resolve {later earlier : Signatures} (h : later.Extends earlier) {callee : String}
    {count : Nat} {location : Option Location} {p : Prototype}
    (hp : earlier.resolve callee count location = .ok p) :
    ∃ q, later.resolve callee count location = .ok q := by
  obtain ⟨hget, harity⟩ := resolve_eq_ok hp
  obtain ⟨q, hq, hqp⟩ := h callee p hget
  refine ⟨q, ?_⟩
  unfold Signatures.resolve
  rw [hq]
  exact if_pos (hqp.trans harity)

/-- A call is refused alike, and the prototype that it is checked against matters no further. -/
theorem SameArities.resolve {first second : Signatures} (h : first.SameArities second)
    (callee : String) (count : Nat) (location : Option Location) :
    (first.resolve callee count location).map (fun _ => ()) =
      (second.resolve callee count location).map fun _ => () := by
  have hcallee := h callee
  unfold Signatures.resolve
  cases hfirst : first.get? callee with
  | none =>
    rw [hfirst] at hcallee
    rw [Option.map_eq_none_iff.1 hcallee.symm]
  | some p =>
    rw [hfirst] at hcallee
    obtain ⟨q, hq, hqp⟩ := Option.map_eq_some_iff.1 hcallee.symm
    rw [hq]
    simp only [hqp]
    split
    · rfl
    · rfl

end Signatures

namespace Code

variable {params : List String} {home : Option Location}

/-- What is accepted under some signatures is accepted under all later ones, as the same code. -/
theorem lower_extend {later earlier : Signatures} (he : later.Extends earlier) {depth : Nat}
    {e : Expr} {code : Code} (h : lower ⟨earlier, params, home⟩ depth e = .ok code) :
    lower ⟨later, params, home⟩ depth e = .ok code := by
  induction depth generalizing e code with
  | zero => simp [lower] at h
  | succ depth ih =>
    cases e with
    | number value location => exact h
    | var name location => exact h
    | binary op lhs rhs location =>
      simp only [lower] at h ⊢
      obtain ⟨l, hl, h⟩ := bind_eq_ok.1 h
      obtain ⟨r, hr, h⟩ := bind_eq_ok.1 h
      exact bind_eq_ok.2 ⟨l, ih hl, bind_eq_ok.2 ⟨r, ih hr, h⟩⟩
    | call callee args location =>
      simp only [lower] at h ⊢
      obtain ⟨p, hp, h⟩ := bind_eq_ok.1 h
      obtain ⟨codes, hcodes, h⟩ := bind_eq_ok.1 h
      obtain ⟨q, hq⟩ := he.resolve hp
      have hargs : args.mapM (lower ⟨later, params, home⟩ depth) = .ok codes :=
        mapM_of_forall₂ ((forall₂_of_mapM hcodes).imp fun _ _ harg => ih harg)
      exact bind_eq_ok.2 ⟨q, hq, bind_eq_ok.2 ⟨codes, hargs, h⟩⟩

/-- Signatures that know the same arities accept and reject alike. -/
theorem lower_congr {first second : Signatures} (h : first.SameArities second) (depth : Nat)
    (e : Expr) : lower ⟨first, params, home⟩ depth e = lower ⟨second, params, home⟩ depth e := by
  induction depth generalizing e with
  | zero => rfl
  | succ depth ih =>
    cases e with
    | number value location => rfl
    | var name location => rfl
    | binary op lhs rhs location => simp only [lower, ih]
    | call callee args location =>
      have hsame : lower ⟨first, params, home⟩ depth = lower ⟨second, params, home⟩ depth :=
        funext ih
      have hresolve := h.resolve callee args.length location
      simp only [lower, hsame]
      cases hfirst : first.resolve callee args.length location with
      | error rejection =>
        cases hsecond : second.resolve callee args.length location with
        | error other =>
          rw [hfirst, hsecond] at hresolve
          cases hresolve
          rfl
        | ok q =>
          rw [hfirst, hsecond] at hresolve
          cases hresolve
      | ok p =>
        cases hsecond : second.resolve callee args.length location with
        | error other =>
          rw [hfirst, hsecond] at hresolve
          cases hresolve
        | ok q => rfl

/-- Calls are bound by name when they run, so code only asks which definition a name has. -/
theorem run_congr {first second : Ledger String (Definition Code)}
    (h : ∀ name, first.get? name = second.get? name) (natives : Ledger String Native) (depth : Nat)
    (code : Code) (args : List Float) :
    run natives first depth code args = run natives second depth code args := by
  induction depth generalizing code args with
  | zero => rfl
  | succ depth ih =>
    cases code with
    | number value => rfl
    | argument index => rfl
    | operation op lhs rhs => simp only [run, ih]
    | call callee params => simp only [run, ih, h callee]

end Code

/-! ### What a list of forms brings -/

namespace Store

variable {β : Type} {lower : Signatures → Function → Except Rejection β} {s t after : Store β}
  {forms others : List Form}

/-- Lowering that accepts under all later signatures what it accepts under some, and as the same. -/
def Lasting (lower : Signatures → Function → Except Rejection β) : Prop :=
  ∀ ⦃later earlier f body⦄, later.Extends earlier → lower earlier f = .ok body →
    lower later f = .ok body

/-- A store holds what some forms bring and nothing else: an entry for each name that they declare
or define, with its arity, and a body for each named function, lowered under the signatures of the
store. Only the members of the list count. -/
structure Holds (lower : Signatures → Function → Except Rejection β) (s : Store β)
    (forms : List Form) : Prop where
  closed : s.Closed
  known : ∀ form ∈ forms, form.prototype.name ≠ "" →
    ∃ p, s.signatures.get? form.prototype.name = some p ∧ p.arity = form.prototype.arity
  declared : ∀ name p, s.signatures.get? name = some p →
    name ≠ "" ∧ ∃ form ∈ forms, form.prototype.name = name ∧ form.prototype.arity = p.arity
  kept : ∀ f, .function f ∈ forms → f.name ≠ "" →
    ∃ body, s.definitions.get? f.name = some ⟨f, body⟩
  defined : ∀ name d, s.definitions.get? name = some d →
    (name ≠ "" ∧ d.function.name = name ∧ .function d.function ∈ forms) ∧
      lower s.signatures d.function = .ok d.body

theorem holds_empty : Holds lower ({} : Store β) [] where
  closed := rfl
  known form hform := by simp at hform
  declared name p hp := by simp at hp
  kept f hf := by simp at hf
  defined name d hd := by simp at hd

theorem Holds.perm (h : s.Holds lower forms) (hperm : forms.Perm others) :
    s.Holds lower others where
  closed := h.closed
  known form hform := h.known form (hperm.mem_iff.2 hform)
  declared name p hp := by
    obtain ⟨hname, form, hform, hown⟩ := h.declared name p hp
    exact ⟨hname, form, hperm.mem_iff.1 hform, hown⟩
  kept f hf := h.kept f (hperm.mem_iff.2 hf)
  defined name d hd := by
    obtain ⟨⟨hname, hown, hmem⟩, hbody⟩ := h.defined name d hd
    exact ⟨⟨hname, hown, hperm.mem_iff.1 hmem⟩, hbody⟩

theorem Holds.arity_of_known (hs : s.Holds lower forms) (ht : t.Holds lower forms) {name : String}
    {p : Prototype} (hp : s.signatures.get? name = some p) :
    (t.signatures.get? name).map Prototype.arity = some p.arity := by
  obtain ⟨hname, form, hform, rfl, harity⟩ := hs.declared name p hp
  obtain ⟨q, hq, hqa⟩ := ht.known form hform hname
  rw [hq, Option.map_some, hqa, harity]

theorem Holds.sameArities (hs : s.Holds lower forms) (ht : t.Holds lower forms) :
    s.signatures.SameArities t.signatures := by
  intro name
  cases hp : s.signatures.get? name with
  | some p => exact (hs.arity_of_known ht hp).symm
  | none =>
    cases hq : t.signatures.get? name with
    | none => rfl
    | some q =>
      have hback := ht.arity_of_known hs hq
      rw [hp] at hback
      cases hback

theorem Holds.get?_of_defined (hs : s.Holds lower forms) (ht : t.Holds lower forms)
    (hlower : ∀ f, lower s.signatures f = lower t.signatures f) {name : String} {d : Definition β}
    (hd : s.definitions.get? name = some d) : t.definitions.get? name = some d := by
  obtain ⟨⟨hname, rfl, hmem⟩, hbody⟩ := hs.defined name d hd
  obtain ⟨body, hkept⟩ := ht.kept d.function hmem hname
  obtain ⟨_, hown⟩ := ht.defined _ _ hkept
  rw [hlower d.function] at hbody
  obtain rfl : body = d.body := Except.ok.inj (hown.symm.trans hbody)
  exact hkept

theorem Holds.sameDefinitions (hs : s.Holds lower forms) (ht : t.Holds lower forms)
    (hlower : ∀ f, lower s.signatures f = lower t.signatures f) (name : String) :
    s.definitions.get? name = t.definitions.get? name := by
  cases hd : s.definitions.get? name with
  | some d => exact (hs.get?_of_defined ht hlower hd).symm
  | none =>
    cases he : t.definitions.get? name with
    | none => rfl
    | some e =>
      rw [ht.get?_of_defined hs (fun f => (hlower f).symm) he] at hd
      cases hd

/-! ### One form, and a list of forms -/

/-- What a named form leaves under its name when it is accepted. -/
structure Leaves (lower : Signatures → Function → Except Rejection β) (s after : Store β)
    (form : Form) : Prop where
  signature : ∃ p, after.signatures.get? form.prototype.name = some p ∧
    p.arity = form.prototype.arity
  external : ∀ p, form = .external p →
    after.definitions.get? p.name = s.definitions.get? p.name
  function : ∀ f, form = .function f →
    ∃ body, lower after.signatures f = .ok body ∧ after.definitions.get? f.name = some ⟨f, body⟩

theorem leaves_of_declare {p : Prototype} {l : Lowered (Handle β)} (hname : p.name ≠ "")
    (h : declare p s = .ok l after) : Leaves lower s after (.external p) := by
  have hdefinitions : after.definitions = s.definitions := by
    rcases declare_ok h with ⟨_, _, _, _, rfl⟩ | ⟨_, _, rfl⟩
    · rfl
    · exact record_definitions s p
  refine ⟨?_, ?_, ?_⟩
  · rcases declare_ok h with ⟨first, hfirst, harity, _, rfl⟩ | ⟨_, _, rfl⟩
    · exact ⟨first, hfirst, harity⟩
    · exact ⟨p, get?_record_self (named_of_ne hname), rfl⟩
  · intro q _
    rw [hdefinitions]
  · intro f hf
    cases hf

theorem leaves_of_define {f : Function} {l : Lowered (Definition β)} (hs : s.Closed)
    (hname : f.name ≠ "") (h : define lower f s = .ok l after) :
    Leaves lower s after (.function f) := by
  obtain ⟨_, body, hbody, _, rfl⟩ := define_ok hs h
  have hnamed : f.prototype.isAnonymous = false := named_of_ne hname
  refine ⟨⟨f.prototype, ?_, rfl⟩, ?_, ?_⟩
  · rw [keep_signatures]
    exact get?_record_self hnamed
  · intro p hp
    cases hp
  · intro g hg
    cases hg
    refine ⟨body, ?_, get?_keep_self (d := ⟨f, body⟩) hnamed⟩
    rw [keep_signatures]
    exact hbody

/-- The store after a form that was accepted, whatever engine accepted it: entries under other names
are the old ones, and the own name has what the form leaves. -/
theorem Holds.append (h : s.Holds lower forms) (hlower : Lasting lower) {form : Form}
    (hclosed : after.Closed) (hkeeps : s.Keeps after)
    (hother : ∀ name, name ≠ form.prototype.name →
      after.signatures.get? name = s.signatures.get? name ∧
        after.definitions.get? name = s.definitions.get? name)
    (hunnamed : form.prototype.name = "" → after = s)
    (hleaves : form.prototype.name ≠ "" → Leaves lower s after form) :
    after.Holds lower (forms ++ [form]) := by
  have hlast : form ∈ forms ++ [form] := List.mem_append_right _ (List.mem_singleton_self form)
  -- An entry under the own name is new only if the form has a name, and a declaration leaves an old
  -- body in its place; everything else was there before.
  refine ⟨hclosed, ?_, ?_, ?_, ?_⟩
  · intro other hmem hname
    rcases List.mem_append.1 hmem with hmem | hmem
    · obtain ⟨p, hp, hpa⟩ := h.known other hmem hname
      obtain ⟨q, hq, hqp⟩ := hkeeps.signatures _ p hp
      exact ⟨q, hq, hqp.trans hpa⟩
    · obtain rfl := List.mem_singleton.1 hmem
      exact (hleaves hname).signature
  · intro name p hp
    have hold : s.signatures.get? name = some p → name ≠ "" ∧
        ∃ other ∈ forms ++ [form], other.prototype.name = name ∧
          other.prototype.arity = p.arity := by
      intro hp
      obtain ⟨hname, other, hmem, hown⟩ := h.declared name p hp
      exact ⟨hname, other, List.mem_append_left _ hmem, hown⟩
    by_cases hown : name = form.prototype.name
    · by_cases hname : form.prototype.name = ""
      · exact hold (hunnamed hname ▸ hp)
      · obtain ⟨q, hq, hqa⟩ := (hleaves hname).signature
        obtain rfl : p = q := by
          rw [hown, hq] at hp
          exact (Option.some.inj hp).symm
        exact ⟨hown ▸ hname, form, hlast, hown.symm, hqa.symm⟩
    · exact hold ((hother name hown).1 ▸ hp)
  · intro f hmem hname
    rcases List.mem_append.1 hmem with hmem | hmem
    · obtain ⟨body, hbody⟩ := h.kept f hmem hname
      exact ⟨body, hkeeps.definitions _ _ hbody⟩
    · obtain rfl := List.mem_singleton.1 hmem
      obtain ⟨body, _, hbody⟩ := (hleaves hname).function f rfl
      exact ⟨body, hbody⟩
  · intro name d hd
    have hold : s.definitions.get? name = some d →
        (name ≠ "" ∧ d.function.name = name ∧ .function d.function ∈ forms ++ [form]) ∧
          lower after.signatures d.function = .ok d.body := by
      intro hd
      obtain ⟨⟨hname, hown, hmem⟩, hbody⟩ := h.defined name d hd
      exact ⟨⟨hname, hown, List.mem_append_left _ hmem⟩, hlower hkeeps.signatures hbody⟩
    by_cases hown : name = form.prototype.name
    · by_cases hname : form.prototype.name = ""
      · exact hold (hunnamed hname ▸ hd)
      · cases form with
        | external p =>
          refine hold (Eq.trans ?_ hd)
          rw [hown]
          exact ((hleaves hname).external p rfl).symm
        | function f =>
          obtain ⟨body, hbody, hkept⟩ := (hleaves hname).function f rfl
          obtain rfl : d = ⟨f, body⟩ := by
            rw [hown] at hd
            exact Option.some.inj (hd.symm.trans hkept)
          exact ⟨⟨hown ▸ hname, hown.symm, hlast⟩, hbody⟩
    · exact hold ((hother name hown).2 ▸ hd)

end Store

def Answer.accepted {η : Type} : Answer η → Bool
  | lowered _ => true
  | _ => false

theorem Answer.accepted_iff {η : Type} {answer : Answer η} :
    answer.accepted = true ↔ ∃ l, answer = .lowered l := by
  cases answer <;> simp [accepted]

namespace Engine

variable {β : Type} {engine : Engine (Store β) (Handle β)}
  {lower : Signatures → Function → Except Rejection β} {s : Store β} {done forms : List Form}

/-- Each of the forms is accepted when they are handed over one after the other. -/
def Accepts (engine : Engine (Store β) (Handle β)) (s : Store β) (forms : List Form) : Prop :=
  ∀ answer ∈ (engine.serve s (forms.map .ofForm)).1, answer.accepted = true

instance (engine : Engine (Store β) (Handle β)) (s : Store β) (forms : List Form) :
    Decidable (engine.Accepts s forms) :=
  inferInstanceAs (Decidable (∀ answer ∈ (engine.serve s (forms.map .ofForm)).1,
    answer.accepted = true))

/-- No bare expression tells two stores apart: they know the same names with the same arities, they
have the same definitions, and what is asked for without a name is answered alike and leaves them as
they are. -/
structure Interchangeable (engine : Engine (Store β) (Handle β)) (s t : Store β) : Prop where
  arities : s.signatures.SameArities t.signatures
  definitions : ∀ name, s.definitions.get? name = t.definitions.get? name
  lowering : ∀ f : Function, f.prototype.isAnonymous = true →
    ∃ answer, engine.perform s (.define f) = (answer, s) ∧
      engine.perform t (.define f) = (answer, t)
  execution : ∀ handle, ∃ answer, engine.perform s (.execute handle) = (answer, s) ∧
    engine.perform t (.execute handle) = (answer, t)

theorem perform_unnamed (hengine : engine.OnStore lower) (hs : s.Closed) {form : Form}
    (hname : form.prototype.name = "") : (engine.perform s (.ofForm form)).2 = s := by
  rcases hengine.perform_cases hs (.ofForm form) with
    ⟨answer, hr, _⟩ | ⟨p, l, after, hrequest, hd, hr⟩ | ⟨f, l, after, hrequest, hd, hr⟩
  · rw [hr]
  · cases form with
    | function f => cases hrequest
    | external q =>
      cases hrequest
      rw [hr]
      rcases Store.declare_ok hd with ⟨_, _, _, _, rfl⟩ | ⟨_, _, rfl⟩
      · rfl
      · exact Store.record_of_anonymous ((Store.isAnonymous_iff p).2 hname)
  · cases form with
    | external q => cases hrequest
    | function g =>
      cases hrequest
      rw [hr]
      obtain ⟨_, body, _, _, rfl⟩ := Store.define_ok hs hd
      have ha := (Store.isAnonymous_iff f.prototype).2 hname
      exact (Store.keep_of_anonymous (d := ⟨f, body⟩) ha).trans (Store.record_of_anonymous ha)

theorem perform_leaves (hengine : engine.OnStore lower) (hs : s.Closed) {form : Form}
    {l : Lowered (Handle β)} (hl : (engine.perform s (.ofForm form)).1 = .lowered l)
    (hname : form.prototype.name ≠ "") :
    Store.Leaves lower s (engine.perform s (.ofForm form)).2 form := by
  rcases hengine.perform_cases hs (.ofForm form) with
    ⟨answer, hr, hno⟩ | ⟨p, k, after, hrequest, hd, hr⟩ | ⟨f, k, after, hrequest, hd, hr⟩
  · rw [hr] at hl
    exact absurd hl (hno l)
  · cases form with
    | function f => cases hrequest
    | external q =>
      cases hrequest
      rw [hr]
      exact Store.leaves_of_declare hname hd
  · cases form with
    | external q => cases hrequest
    | function g =>
      cases hrequest
      rw [hr]
      exact Store.leaves_of_define hs hname hd

theorem perform_holds (hengine : engine.OnStore lower) (hlower : Store.Lasting lower)
    (h : s.Holds lower done) {form : Form} {l : Lowered (Handle β)}
    (hl : (engine.perform s (.ofForm form)).1 = .lowered l) :
    (engine.perform s (.ofForm form)).2.Holds lower (done ++ [form]) := by
  obtain ⟨hkeeps, hframe⟩ := perform_keeps hengine h.closed (.ofForm form)
  have hown : (Request.ofForm form).name? (β := β) = some form.prototype.name := by
    cases form <;> rfl
  refine h.append hlower (hengine.atomic.keeps s _ h.closed) hkeeps (fun name hname => ?_)
    (perform_unnamed hengine h.closed) (perform_leaves hengine h.closed hl)
  apply hframe name
  rw [hown]
  exact fun heq => hname (Option.some.inj heq).symm

/-- The induction is on the forms that are still to come; those behind are in `done`. -/
theorem serve_holds (hengine : engine.OnStore lower) (hlower : Store.Lasting lower)
    (h : s.Holds lower done) (hforms : engine.Accepts s forms) :
    (engine.serve s (forms.map .ofForm)).2.Holds lower (done ++ forms) := by
  induction forms generalizing s done with
  | nil =>
    rw [List.append_nil]
    exact h
  | cons form rest ih =>
    obtain ⟨l, hl⟩ := Answer.accepted_iff.1 (hforms _ (List.mem_cons_self ..))
    have hrest := ih (perform_holds hengine hlower h hl)
      fun answer hanswer => hforms answer (List.mem_cons_of_mem _ hanswer)
    rw [List.append_assoc] at hrest
    exact hrest

end Engine

namespace Interpreter

variable {natives : Ledger String Native} {limit : Nat} {s t : Store Code}

theorem lasting (limit : Nat) : Store.Lasting (lower limit) :=
  fun _ _ _ _ he h => Code.lower_extend he h

/-- What an expression without a name is lowered to rests on arities alone. -/
theorem perform_expression (hs : s.Closed) {f : Function}
    (hf : f.prototype.isAnonymous = true) :
    (engine natives limit).perform s (.define f) =
      (match lower limit s.signatures f with
        | .ok body => .lowered ⟨.defined ⟨f, body⟩, []⟩
        | .error rejection => .rejected rejection, s) := by
  have hdefine := Store.define_eq (lower limit) f hs
  have henroll : s.enroll f.prototype = .ok s := by simp [Store.enroll, hf]
  simp only [henroll, hf, if_true] at hdefine
  have hengine : (engine natives limit).define f =
    Lowered.map .defined <$> Store.define (lower limit) f := rfl
  simp only [Engine.perform, hengine]
  cases hbody : lower limit s.signatures f with
  | error rejection =>
    rw [hbody] at hdefine
    rw [step_map_error hdefine]
  | ok body =>
    rw [hbody] at hdefine
    rw [step_map_ok hdefine, Store.keep_of_anonymous (d := ⟨f, body⟩) hf,
      Store.record_of_anonymous hf]
    rfl

theorem execute_congr (h : ∀ name, s.definitions.get? name = t.definitions.get? name)
    (handle : Handle Code) :
    execute natives limit s handle = execute natives limit t handle := by
  unfold execute
  split
  · cases handle with
    | defined d => exact Code.run_congr h natives limit d.body []
    | declared requested recorded =>
      exact Code.run_congr h natives (limit + 1) (.call requested.name []) []
    | plain name arity => exact Code.run_congr h natives (limit + 1) (.call name []) []
  · rfl

theorem interchangeable (hs : s.Closed) (ht : t.Closed)
    (harities : s.signatures.SameArities t.signatures)
    (hdefinitions : ∀ name, s.definitions.get? name = t.definitions.get? name) :
    (engine natives limit).Interchangeable s t where
  arities := harities
  definitions := hdefinitions
  lowering f hf := by
    refine ⟨_, perform_expression hs hf, ?_⟩
    have hlower : lower limit s.signatures f = lower limit t.signatures f :=
      Code.lower_congr harities limit f.body
    rw [perform_expression ht hf, hlower]
  execution handle := by
    have hexecute : ∀ store : Store Code, (engine natives limit).execute handle store =
        (ofExcept (execute natives limit store handle) : EStateM Trap (Store Code) Float) store :=
      fun _ => rfl
    simp only [Engine.perform, hexecute, execute_congr hdefinitions handle]
    cases execute natives limit t handle with
    | ok x => exact ⟨.value x, rfl, rfl⟩
    | error trap => exact ⟨.trapped trap, rfl, rfl⟩

/-- Whatever the order in which all of the forms are accepted, the store ends up with what they
bring, and no expression afterwards tells in which order they came. -/
theorem order_of_forms_does_not_matter (natives : Ledger String Native) (limit : Nat)
    {forms others : List Form} (hperm : forms.Perm others)
    (hforms : (engine natives limit).Accepts {} forms)
    (hothers : (engine natives limit).Accepts {} others) :
    let s := ((engine natives limit).serve {} (forms.map .ofForm)).2
    let t := ((engine natives limit).serve {} (others.map .ofForm)).2
    (s.Holds (lower limit) forms ∧ t.Holds (lower limit) forms) ∧
      (engine natives limit).Interchangeable s t := by
  intro s t
  have hengine := onStore natives limit
  have hs : s.Holds (lower limit) forms :=
    Engine.serve_holds hengine (lasting limit) Store.holds_empty hforms
  have ht : t.Holds (lower limit) forms :=
    (Engine.serve_holds hengine (lasting limit) Store.holds_empty hothers).perm hperm.symm
  have harities := hs.sameArities ht
  have hlower : ∀ f, lower limit s.signatures f = lower limit t.signatures f :=
    fun f => Code.lower_congr harities limit f.body
  exact ⟨⟨hs, ht⟩, interchangeable hs.closed ht.closed harities (hs.sameDefinitions ht hlower)⟩

/-- A caller that is lowered when its callee is only declared, and when it has its body already. -/
theorem order_of_forms_does_not_matter_late_body :
    let declared : Form := .external ⟨"g", ["a"], none⟩
    let caller : Form := .function ⟨⟨"f", ["x"], none⟩, .call "g" [.var "x" none] none⟩
    let callee : Form := .function ⟨⟨"g", ["y"], none⟩, .var "y" none⟩
    let first := [declared, caller, callee]
    let second := [callee, declared, caller]
    let s := ((engine [] 9).serve {} (first.map .ofForm)).2
    let t := ((engine [] 9).serve {} (second.map .ofForm)).2
    (first.Perm second ∧ (engine [] 9).Accepts {} first ∧ (engine [] 9).Accepts {} second) ∧
    (s.Holds (lower 9) first ∧ t.Holds (lower 9) first) ∧
      (engine [] 9).Interchangeable s t := by
  intro declared caller callee first second s t
  have hperm : first.Perm second := @List.perm_append_comm _ [declared, caller] [callee]
  have hfirst : (engine [] 9).Accepts {} first := by decide
  have hsecond : (engine [] 9).Accepts {} second := by decide
  exact ⟨⟨hperm, hfirst, hsecond⟩, order_of_forms_does_not_matter [] 9 hperm hfirst hsecond⟩

end Interpreter
end ScalarLang
