import ScalarLang.Proofs.IR.Reached
import ScalarLang.Proofs.Interpreter.Meaning

/-!
# Generated code means the same as interpreted code

Where every function that an expression reaches is defined, linking leaves no declaration, and a
call of linked code returns what the call of the function means. If moreover none of these functions
reaches itself, the calls that the linked module allows inside one another are enough. So the code
that is generated for a bare expression returns the value that the interpreter yields, whichever of
the functions were defined only after those that call them.
-/
namespace ScalarLang.IR

variable {depth : Nat} {s : Store Module} {f : Function} {m : Module}

/-! ### Linked code without declarations -/

/-- Linked code in which every procedure has a body. -/
structure Whole (s : Store Module) (f : Function) (m : Module) : Prop where
  linked : Linked s f m
  bodied : ∀ p ∈ m.procedures, p.body ≠ none

theorem whole_link (hs : s.Kept (lower depth)) (h : Compiled m f)
    (hdefined : ∀ name, Functions.Reaches s.functions f.body name → s.isDefined name = true) :
    Whole s f (m.link s.definitions) := by
  obtain ⟨hlinked, hcomplete⟩ := link_complete hs h
  refine ⟨hlinked, fun p hp hbody => ?_⟩
  have hreached := (hlinked.reached p hp).resolve_left (hlinked.ne_root hp hbody)
  have hhas := hdefined p.symbol hreached
  rw [Store.isDefined, hcomplete p hp hbody] at hhas
  cases hhas

namespace Whole

theorem unresolvedIn_eq_none (h : Whole s f m) (present : String → Bool) :
    m.unresolvedIn present = none := by
  have hfind : m.procedures.find? (fun p => p.isDeclaration && !present p.symbol) = none := by
    refine List.find?_eq_none.2 fun p hp => ?_
    have hbody := h.bodied p hp
    simp [Procedure.isDeclaration, hbody]
  rw [Module.unresolvedIn, hfind]
  rfl

/-- A symbol of a defined function stands for the procedure that implements it. -/
theorem find?_defined (hs : s.Kept (lower depth)) (h : Whole s f m)
    (hf : symbolOf f.prototype = anonymousSymbol) {name : String} {d : Definition Module}
    (hd : s.definitions.get? name = some d) (hname : name ∈ m.symbols) :
    ∃ p, m.find? name = some p ∧ Implements p d.function := by
  obtain ⟨p, hp⟩ := Module.exists_find? hname
  obtain ⟨hmem, rfl⟩ := Module.find?_eq_some hp
  refine ⟨p, hp, ?_⟩
  rcases h.linked.genuine p hmem with hbody | hroot | ⟨e, he, himplements⟩
  · exact absurd hbody (h.bodied p hmem)
  · have hword := (hs _ d hd).word
    rw [hroot.symbol, hf] at hword
    exact absurd hword not_isWord_anonymousSymbol
  · cases hd.symm.trans he
    exact himplements

theorem find?_root (h : Whole s f m) :
    ∃ p, m.find? (symbolOf f.prototype) = some p ∧ Implements p f := by
  obtain ⟨q, hq, himplements⟩ := h.linked.rooted
  obtain ⟨p, hp⟩ := Module.exists_find? (Module.mem_symbols.2 ⟨q, hq, himplements.symbol⟩)
  obtain ⟨hmem, hown⟩ := Module.find?_eq_some hp
  obtain rfl := Module.eq_of_symbol_eq h.linked.distinct hmem hq
    (hown.trans himplements.symbol.symm)
  exact ⟨p, hp, himplements⟩

/-- Everything that is reached is held: the callees of a procedure are, and each has a body. -/
theorem symbols_reached (hs : s.Kept (lower depth)) (h : Whole s f m)
    (hf : symbolOf f.prototype = anonymousSymbol) {name : String}
    (hreached : Functions.Reaches s.functions f.body name) : name ∈ m.symbols := by
  obtain ⟨root, hroot, hpath⟩ := hreached
  induction hpath with
  | refl =>
    obtain ⟨p, hp, himplements⟩ := h.linked.rooted
    exact h.linked.held p hp root ((himplements.calls root).2 hroot)
  | @tail caller callee _ hcalls ih =>
    obtain ⟨g, hg, hcallee⟩ := hcalls
    obtain ⟨d, hd, rfl⟩ := Store.exists_definition hg
    obtain ⟨p, hp, himplements⟩ := h.find?_defined hs hf hd ih
    exact h.linked.held p (Module.find?_eq_some hp).1 callee ((himplements.calls callee).2 hcallee)

end Whole

/-! ### Calls of linked code -/

theorem call_of_implements {name : String} {p : Procedure} {g : Function} {calls : Nat}
    {args : List Float} {x : Float} (hp : m.find? name = some p) (h : Implements p g)
    (harity : g.prototype.arity = args.length)
    (hx : g.body.value (m.call calls) (binding g.prototype.params args) = some x) :
    m.call (calls + 1) name args = some x := by
  obtain ⟨block, rfl, hvalue⟩ := h.code
  have hcount : g.prototype.params.length = args.length := harity
  simp only [Module.call, hp, hcount, if_true]
  exact hvalue (m.call calls) args x hx

namespace Whole

variable {signatures : Signatures}

/-- Linked code returns what calls mean, with as many calls inside one another. -/
theorem call_eq (hs : s.Kept (lower depth)) (hscoped : Functions.Scoped s.functions signatures)
    (h : Whole s f m) (hf : symbolOf f.prototype = anonymousSymbol) {calls : Nat} {name : String}
    {args : List Float} {x : Float} (hreached : Functions.Reaches s.functions f.body name)
    (hx : Functions.call s.functions calls name args = some x) :
    m.call calls name args = some x := by
  induction calls generalizing name args x with
  | zero => cases hx
  | succ calls ih =>
    obtain ⟨g, hg, harity, hvalue⟩ := Functions.call_succ_eq_some.1 hx
    obtain ⟨hbody, _⟩ := hscoped name g hg
    obtain ⟨root, hroot, hpath⟩ := hreached
    have hcalls : ∀ callee ∈ g.body.callees, ∀ xs y,
        Functions.call s.functions calls callee xs = some y → m.call calls callee xs = some y := by
      intro callee hcallee xs y hy
      exact ih ⟨root, hroot, hpath.tail ⟨g, hg, hcallee⟩⟩ hy
    obtain ⟨d, hd, rfl⟩ := Store.exists_definition hg
    obtain ⟨p, hp, himplements⟩ :=
      h.find?_defined hs hf hd (h.symbols_reached hs hf ⟨root, hroot, hpath⟩)
    exact call_of_implements hp himplements harity (hbody.value_mono hcalls hvalue)

end Whole

/-- Running the module of a bare expression gives its value, if everything that it reaches is
defined and nothing of it reaches itself. Linked code makes no more calls inside one another than it
has procedures. -/
theorem run_link_eq (hs : s.Kept (lower depth))
    (hscoped : Functions.Scoped s.functions s.signatures)
    (hbody : f.body.Scoped s.signatures f.prototype.params)
    (hf : symbolOf f.prototype = anonymousSymbol) (harity : f.prototype.arity = 0)
    (hm : Compiled m f)
    (hdefined : ∀ name, Functions.Reaches s.functions f.body name → s.isDefined name = true)
    (hacyclic : ∀ name, Functions.Reaches s.functions f.body name →
      ¬ Relation.TransGen (Functions.Calls s.functions) name name) :
    ∃ calls x, f.body.value (Functions.call s.functions calls) (binding f.prototype.params []) =
        some x ∧ (m.link s.definitions).run m.name = some x ∧
        ∀ present, (m.link s.definitions).unresolvedIn present = none := by
  have hwhole := whole_link hs hm hdefined
  generalize hlinked : m.link s.definitions = linked at hwhole
  have hcalls : ∀ name ∈ f.body.callees, ∀ p xs, s.signatures.get? name = some p →
      p.arity = xs.length →
      ∃ y, Functions.call s.functions linked.procedures.length name xs = some y := by
    intro name hname p xs hp hxs
    have hreaches : ∀ reached, Relation.ReflTransGen (Functions.Calls s.functions) name reached →
        Functions.Reaches s.functions f.body reached := fun reached h => ⟨name, hname, h⟩
    have hterminates : Functions.Terminates s.functions name := by
      refine ⟨fun reached h => ?_, fun reached h => hacyclic reached (hreaches reached h)⟩
      have hhas := hdefined reached (hreaches reached h)
      rw [Store.isDefined_eq] at hhas
      exact Option.isSome_iff_exists.1 hhas
    have hgiven : ∀ reached, Relation.ReflTransGen (Functions.Calls s.functions) name reached →
        reached ∈ linked.symbols :=
      fun reached h => hwhole.symbols_reached hs hf (hreaches reached h)
    exact Functions.call_total hscoped hterminates hgiven (by simp [Module.symbols]) hp hxs
  have hcount : f.prototype.params.length = ([] : List Float).length := harity
  obtain ⟨x, hx⟩ := hbody.value_total (binding_total hcount) hcalls
  refine ⟨linked.procedures.length, x, hx, ?_, hwhole.unresolvedIn_eq_none⟩
  obtain ⟨p, hp, himplements⟩ := hwhole.find?_root
  have hvalue : f.body.value (linked.call linked.procedures.length)
      (binding f.prototype.params []) = some x := by
    refine hbody.value_mono (fun name hname xs y hy => ?_) hx
    exact hwhole.call_eq hs hscoped hf ⟨name, hname, .refl⟩ hy
  rw [hm.name]
  exact call_of_implements hp himplements harity hvalue

/-- A linked module that passes verification and leaves no declaration is started. -/
theorem execute_defined {runtime : Runtime} (depth : Nat) {d : Definition Module}
    (harity : d.function.prototype.arity = 0)
    (hpassed : runtime.linkComplaint? (d.body.link s.definitions) = none)
    (hresolved : (d.body.link s.definitions).unresolvedIn runtime.resolves = none) {x : Float}
    (hstart : runtime.start (d.body.link s.definitions) d.body.name = .value x) :
    execute runtime depth (.defined d) s = .ok x s := by
  have hzero : Handle.arity (.defined d) = 0 := by simp [Handle.arity, harity]
  have hrunnable : runnable runtime depth (.defined d) s = .ok d.body s := rfl
  have hlaunch : launch runtime s d.body = .ok x := by
    simp only [launch, hpassed, hresolved, hstart]
  simp only [execute, hzero, if_true, hrunnable, hlaunch]
  rfl

end ScalarLang.IR

namespace ScalarLang

/-! ### Both engines -/

theorem Prototype.Regular.arity_eq_zero {p : Prototype} (h : p.Regular)
    (hbare : p.isAnonymous = true) : p.arity = 0 := by
  rcases h.name with hword | ⟨_, hparams⟩
  · exact absurd ((Store.isAnonymous_iff p).1 hbare) hword.1
  · simp [Prototype.arity, hparams]

namespace Store

variable {β γ : Type} {lowerS : Signatures → Function → Except Rejection β}
  {lowerT : Signatures → Function → Except Rejection γ} {f : Function}

theorem define_bare {s after : Store β} {l : Lowered (Definition β)} (hs : s.Closed)
    (hbare : f.prototype.isAnonymous = true) (h : define lowerS f s = .ok l after) :
    ∃ body, l.handle = ⟨f, body⟩ ∧ lowerS s.signatures f = .ok body ∧ after = s := by
  obtain ⟨_, body, hbody, hhandle, rfl⟩ := define_ok hs h
  rw [record_of_anonymous hbare] at hbody ⊢
  exact ⟨body, hhandle, hbody, keep_of_anonymous (d := ⟨f, body⟩) hbare⟩

/-- A bare expression that one engine lowers is lowered by the other, unless that one runs out of
depth. -/
theorem Alike.define_bare {s after : Store β} {t : Store γ} (h : s.Alike t) (hs : s.Closed)
    (ht : t.Closed) (hbare : f.prototype.isAnonymous = true)
    (hlower : ∀ signatures, Agree (lowerS signatures f) (lowerT signatures f))
    {l : Lowered (Definition β)} (hd : Store.define lowerS f s = .ok l after)
    (hdeep : ∀ location, Store.define lowerT f t ≠ .error ⟨.nesting, location⟩ t) :
    ∃ k body, Store.define lowerT f t = .ok k t ∧ k.handle = ⟨f, body⟩ ∧
      lowerT t.signatures f = .ok body := by
  rcases h.define hs ht hlower with
    ⟨location, he⟩ | ⟨location, he⟩ | ⟨rejection, he, _⟩ | ⟨_, k, _, final, _, hk, _⟩
  · cases hd.symm.trans he
  · exact absurd he (hdeep location)
  · cases hd.symm.trans he
  · obtain ⟨body, hhandle, hbody, rfl⟩ := Store.define_bare ht hbare hk
    exact ⟨k, body, hk, hhandle, hbody⟩

/-- Stores of the two engines after the same history. -/
structure Paired (n m : Nat) (s : Store Code) (t : Store IR.Module) : Prop where
  alike : s.Alike t
  interpreted : s.Closed ∧ s.Kept (Interpreter.lower n)
  generated : t.Closed ∧ t.Kept (IR.lower m)

theorem paired_of_history (natives : Ledger String Native) {runtime : IR.Runtime}
    (haccepts : runtime.AcceptsWellFormed) (n m : Nat) {forms : List Form}
    (hforms : ∀ form ∈ forms, form.Read)
    (hinterpreter : ∀ answer ∈
      ((Interpreter.engine natives n).serve {} (forms.map .ofForm)).1, ¬ answer.TooDeep)
    (hgenerator : ∀ answer ∈ ((IR.engine m runtime).serve {} (forms.map .ofForm)).1,
      ¬ answer.TooDeep) :
    Paired n m ((Interpreter.engine natives n).serve {} (forms.map .ofForm)).2
      ((IR.engine m runtime).serve {} (forms.map .ofForm)).2 := by
  have hfirst := Interpreter.onStore natives n
  have hsecond := IR.standard_onStore m
  have hregular : ∀ form ∈ forms, form.prototype.Regular :=
    fun form hform => (hforms form hform).regular
  rw [IR.serve_forms_eq haccepts m IR.worded_empty closed_empty hforms] at hgenerator ⊢
  refine ⟨?_, ⟨?_, ?_⟩, ?_, ?_⟩
  · exact Engine.serve_alike hfirst hsecond (fun _ _ => function_agrees n m) .empty closed_empty
      closed_empty hregular hinterpreter hgenerator
  · exact hfirst.atomic.keeps_serve closed_empty _
  · exact Engine.serve_kept hfirst kept_empty closed_empty (Request.regular_of_forms hregular)
  · exact hsecond.atomic.keeps_serve closed_empty _
  · exact Engine.serve_kept hsecond kept_empty closed_empty (Request.regular_of_forms hregular)

/-- The module of a bare expression after a history, linked. -/
theorem link_wellFormed_of_define {runtime : IR.Runtime} {m : Nat} {forms : List Form}
    (hforms : ∀ form ∈ forms, form.Read) (hf : (Form.function f).Read)
    {l : Lowered (Definition IR.Module)} {module : IR.Module} (hhandle : l.handle = ⟨f, module⟩) :
    let t := ((IR.engine m runtime).serve {} (forms.map .ofForm)).2
    (IR.engine m runtime).define f t = .ok (l.map .defined) t →
      (module.link t.definitions).WellFormed := by
  intro t hdefine
  have hall : ∀ form ∈ forms ++ [Form.function f], form.Read := by
    simpa [or_imp, forall_and] using ⟨hforms, hf⟩
  have hserved : (IR.engine m runtime).serve {} ((forms ++ [Form.function f]).map .ofForm) =
      (((IR.engine m runtime).serve {} (forms.map .ofForm)).1 ++ [.lowered (l.map .defined)],
        t) := by
    have hperform : (IR.engine m runtime).perform t (.define f) =
        (.lowered (l.map .defined), t) := by
      simp only [Engine.perform, hdefine]
    rw [List.map_append, Engine.serve_append]
    simp only [List.map_cons, List.map_nil, Request.ofForm, Engine.serve_cons, Engine.serve]
    rw [hperform]
  have hreturned : .defined ⟨f, module⟩ ∈ Answer.handles
      ((IR.engine m runtime).serve {} ((forms ++ [Form.function f]).map .ofForm)).1 := by
    rw [hserved, ← hhandle]
    exact Answer.mem_handles (l := l.map Handle.defined)
      (List.mem_append_right _ (List.mem_singleton_self _))
  have hwhole := IR.link_wellFormed (Request.read_of_forms hall) hreturned
  rw [hserved] at hwhole
  exact hwhole

/-- The value of a bare expression after the same history. -/
theorem Paired.same_value (natives : Ledger String Native) {n m : Nat} {s : Store Code}
    {t : Store IR.Module} (h : Paired n m s t) (hregular : f.prototype.Regular)
    (hbare : f.prototype.isAnonymous = true) {code : Code} {generated : IR.Module}
    (hcode : Interpreter.lower n s.signatures f = .ok code)
    (hgenerated : IR.lower m t.signatures f = .ok generated)
    (hdefined : ∀ name, Functions.Reaches s.functions f.body name → s.isDefined name = true)
    (hacyclic : ∀ name, Functions.Reaches s.functions f.body name →
      ¬ Relation.TransGen (Functions.Calls s.functions) name name) :
    ∃ x, (generated.link t.definitions).run generated.name = some x ∧
      (∀ present, (generated.link t.definitions).unresolvedIn present = none) ∧
      Yields (fun depth => Interpreter.execute natives depth s (.defined ⟨f, code⟩)) x := by
  have harity := hregular.arity_eq_zero hbare
  have hsymbol : IR.symbolOf f.prototype = IR.anonymousSymbol := by simp [IR.symbolOf, hbare]
  have hscoped := Interpreter.scoped_of_kept h.interpreted.2
  have hbody := Code.scoped_of_lower hcode
  have hisDefined : ∀ name, t.isDefined name = s.isDefined name := by
    intro name
    rw [isDefined_eq, isDefined_eq, h.alike.functions]
  rw [h.alike.functions, h.alike.signatures] at hscoped
  rw [h.alike.signatures] at hbody
  rw [h.alike.functions] at hdefined hacyclic
  obtain ⟨calls, x, hx, hrun, hresolved⟩ := IR.run_link_eq h.generated.2 hscoped hbody hsymbol
    harity (IR.compiled_of_lower hregular hgenerated)
    (fun name hname => (hisDefined name).trans (hdefined name hname)) hacyclic
  rw [← h.alike.functions] at hx
  exact ⟨x, hrun, hresolved,
    Interpreter.execute_yields natives h.interpreted.2 hcode harity hx⟩

end Store

/-- Forms as they are read, given one after the other to the two engines, and after them a bare
expression that is lowered: if every function that it reaches through calls is defined and none of
them reaches itself, then the linked module of the code that is generated for it returns a double by
its instructions, and the interpreter returns the same, or runs out of depth if its budget is too
small. A runtime that takes what is well formed is given just that module to run. -/
theorem generated_code_means_the_same (natives : Ledger String Native) {runtime : IR.Runtime}
    (haccepts : runtime.AcceptsWellFormed) (n m : Nat)
    {forms : List Form} (hforms : ∀ form ∈ forms, form.Read) {f : Function}
    (hf : (Form.function f).Read) (hbare : f.prototype.isAnonymous = true)
    (hinterpreter : ∀ answer ∈
      ((Interpreter.engine natives n).serve {} (forms.map .ofForm)).1, ¬ answer.TooDeep)
    (hgenerator : ∀ answer ∈
      ((IR.engine m runtime).serve {} ((forms ++ [Form.function f]).map .ofForm)).1,
      ¬ answer.TooDeep) :
    let s := ((Interpreter.engine natives n).serve {} (forms.map .ofForm)).2
    let t := ((IR.engine m runtime).serve {} (forms.map .ofForm)).2
    ∀ l after, (Interpreter.engine natives n).define f s = .ok l after →
      (∀ name, Functions.Reaches s.functions f.body name → s.isDefined name = true) →
      (∀ name, Functions.Reaches s.functions f.body name →
        ¬ Relation.TransGen (Functions.Calls s.functions) name name) →
      ∃ generated d x, (IR.engine m runtime).define f t = .ok generated t ∧
        generated.handle = .defined d ∧
        (d.body.link t.definitions).run d.body.name = some x ∧
        (runtime.start (d.body.link t.definitions) d.body.name = .value x →
          (IR.engine m runtime).execute generated.handle t = .ok x t) ∧
        ∃ need, ∀ depth,
          (need ≤ depth → (Interpreter.engine natives depth).execute l.handle s = .ok x s) ∧
          (depth < need →
            (Interpreter.engine natives depth).execute l.handle s = .error .depth s) := by
  intro s t l after hlowered hdefined hacyclic
  have hregular : f.prototype.Regular := hf.regular
  simp only [List.map_append, Engine.serve_append, List.mem_append] at hgenerator
  have hpaired : Store.Paired n m s t :=
    Store.paired_of_history natives haccepts n m hforms hinterpreter
      fun answer ha => hgenerator answer (Or.inl ha)
  have hsame : Store.define (IR.compile runtime m) f t = Store.define (IR.lower m) f t :=
    IR.define_eq_lower haccepts m (IR.worded_of_history (Request.read_of_forms hforms))
      hpaired.generated.1 hregular
  have hdeep : ∀ location, Store.define (IR.lower m) f t ≠ .error ⟨.nesting, location⟩ t := by
    intro location herror
    refine hgenerator (.rejected ⟨.nesting, location⟩) (Or.inr ?_) ⟨location, rfl⟩
    have hrejected : (IR.engine m runtime).define f t = .error ⟨.nesting, location⟩ t :=
      step_map_error (hsame.trans herror)
    have hperform : ((IR.engine m runtime).perform t (.define f)).1 =
        .rejected ⟨.nesting, location⟩ := by
      simp only [Engine.perform, hrejected]
    exact List.mem_singleton.2 hperform.symm
  obtain ⟨l, hd, rfl⟩ := step_map_eq_ok hlowered
  obtain ⟨code, hhandle, hcode, _⟩ := Store.define_bare hpaired.interpreted.1 hbare hd
  obtain ⟨generated, module, hdefine, hother, hmodule⟩ :=
    hpaired.alike.define_bare hpaired.interpreted.1 hpaired.generated.1 hbare
      (fun _ => function_agrees n m hregular) hd hdeep
  obtain ⟨x, hrun, hresolved, need, hneed⟩ :=
    hpaired.same_value natives hregular hbare hcode hmodule hdefined hacyclic
  have haccepted : (IR.engine m runtime).define f t = .ok (generated.map .defined) t :=
    step_map_ok (hsame.trans hdefine)
  have hwhole : (module.link t.definitions).WellFormed :=
    Store.link_wellFormed_of_define hforms hf hother haccepted
  refine ⟨generated.map .defined, ⟨f, module⟩, x, haccepted, congrArg Handle.defined hother, hrun,
    fun hstart => ?_, need, fun depth => ?_⟩
  · have hpassed := haccepts.linkComplaint _ hwhole
    have hready := hresolved runtime.resolves
    have hexecute : IR.execute runtime m (.defined ⟨f, module⟩) t = .ok x t :=
      IR.execute_defined (d := ⟨f, module⟩) m (hregular.arity_eq_zero hbare) hpassed hready hstart
    rw [Lowered.map, hother]
    exact hexecute
  · rw [Lowered.map, hhandle]
    constructor
    · intro hle
      exact Interpreter.engine_execute_of_ok ((hneed depth).1 hle)
    · intro hlt
      exact Interpreter.engine_execute_of_error ((hneed depth).2 hlt)

theorem lexemes_literal_call :
    lexemes "" "h(2)".toList =
      [⟨[], .token ⟨.identifier "h", "h", some ⟨"", 1, 1, 0⟩⟩⟩,
        ⟨[], .token ⟨.symbol "(", "(", some ⟨"", 1, 2, 1⟩⟩⟩,
        ⟨[], .token ⟨.number (Decimal.literalValue ['2']), "2", some ⟨"", 1, 3, 2⟩⟩⟩,
        ⟨[], .token ⟨.symbol ")", ")", some ⟨"", 1, 4, 3⟩⟩⟩,
        ⟨[], .token ⟨.eof, "", some ⟨"", 1, 4, 3⟩⟩⟩] := by rfl

theorem literal_call_read :
    ∃ x location place, (Parse.all .standard 9).result (.ofSource "" "h(2)".toList) =
      .ok [Form.function ⟨⟨"", [], location⟩, .call "h" [.number x place] location⟩] := by
  refine ⟨Decimal.literalValue ['2'], some ⟨"", 1, 1, 0⟩, some ⟨"", 1, 3, 2⟩, ?_⟩
  rw [Reader.ofSource, lexemes_literal_call]
  generalize Decimal.literalValue ['2'] = x
  cbv

set_option maxRecDepth 20000 in
theorem late_body_checks (x : Float) (location place : Option Location) :
    let f : Function := ⟨⟨"", [], location⟩, .call "h" [.number x place] location⟩
    (match (Parse.all .standard 9).result
        (.ofSource "" "extern g(x) def h(x) g(x) < x def g(x) x * x".toList) with
      | .ok forms =>
        let s := ((Interpreter.engine [] 9).serve {} (forms.map .ofForm)).2
        (((Interpreter.engine [] 9).serve {} (forms.map .ofForm)).1.all
            fun answer => !answer.isTooDeep) &&
          (((IR.engine 9).serve {} ((forms ++ [Form.function f]).map .ofForm)).1.all
            fun answer => !answer.isTooDeep) &&
          Functions.inOrder s.functions ["h", "g"] &&
          (match (Interpreter.engine [] 9).define f s with
            | .ok _ _ => true
            | .error _ _ => false)
      | .error _ => false) = true := by cbv

/-- The function `h` is defined while `g`, which it calls, is only declared. -/
theorem generated_code_means_the_same_late_body :
    ∃ forms f,
      (Parse.all .standard 9).result
        (.ofSource "" "extern g(x) def h(x) g(x) < x def g(x) x * x".toList) = .ok forms ∧
      (Parse.all .standard 9).result (.ofSource "" "h(2)".toList) = .ok [Form.function f] ∧
      let s := ((Interpreter.engine [] 9).serve {} (forms.map .ofForm)).2
      let t := ((IR.engine 9).serve {} (forms.map .ofForm)).2
      Functions.inOrder s.functions ["h", "g"] = true ∧ f.body.callees = ["h"] ∧
      ∃ l after generated d x, (Interpreter.engine [] 9).define f s = .ok l after ∧
        (IR.engine 9).define f t = .ok generated t ∧ generated.handle = .defined d ∧
        (d.body.link t.definitions).run d.body.name = some x ∧
        (IR.engine 9).execute generated.handle t = .ok x t ∧
        ∃ need, ∀ depth,
          (need ≤ depth → (Interpreter.engine [] depth).execute l.handle s = .ok x s) ∧
          (depth < need → (Interpreter.engine [] depth).execute l.handle s = .error .depth s) := by
  obtain ⟨x, location, place, hcall⟩ := literal_call_read
  have hchecks := late_body_checks x location place
  split at hchecks
  · next forms hforms =>
    simp only [Bool.and_eq_true] at hchecks
    obtain ⟨⟨⟨hinterpreter, hgenerator⟩, horder⟩, hdefine⟩ := hchecks
    refine ⟨forms, _, hforms, hcall, horder, rfl, ?_⟩
    have hroots : ∀ root ∈ (Expr.call "h" [.number x place] location).callees,
        root ∈ ["h", "g"] := by
      simp [Expr.callees, Expr.calleesAll]
    split at hdefine
    · next l after hl =>
      have hread := Parse.read_of_all hcall _ (List.mem_cons_self ..)
      obtain ⟨generated, d, value, hgenerated, hhandle, hrun, hexecute, hneed⟩ :=
        generated_code_means_the_same [] IR.Runtime.standard_accepts 9 9
          (Parse.read_of_all hforms) hread rfl
          (Answer.not_tooDeep_of_all hinterpreter) (Answer.not_tooDeep_of_all hgenerator) l after hl
          (fun name hname => (Store.isDefined_eq _ name).trans
            (Functions.has_of_inOrder horder (Functions.mem_of_reaches horder hroots hname)))
          (fun name hname =>
            Functions.acyclic_of_inOrder horder (Functions.mem_of_reaches horder hroots hname))
      exact ⟨l, after, generated, d, value, hl, hgenerated, hhandle, hrun,
        hexecute (IR.Runtime.start_standard hrun), hneed⟩
    · cases hdefine
  · cases hchecks

end ScalarLang
