import ScalarLang.Proofs.Engine.Returned
import ScalarLang.Proofs.IR.Verified

/-!
# What linking brings in

A module is linked with the definitions that it reaches through calls. The rounds of linking follow
the declarations of the module that is being built, and these come from separate modules that were
lowered at different times. That the outcome is what call instructions reach, in the modules as they
were lowered, rests on three facts: the calls of a module are those of its function, a name that was
declared once keeps its number of parameters, and a function with a name has one body.
-/
namespace ScalarLang.IR

variable {depth : Nat} {s : Store Module} {f : Function} {m whole : Module} {name : String}
  {linked : List String}

/-! ### Calls across modules -/

namespace Module

def callees (m : Module) : List String := m.procedures.flatMap Procedure.callees

def Calls (definitions : Ledger String (Definition Module)) (caller callee : String) : Prop :=
  ∃ d, definitions.get? caller = some d ∧ callee ∈ d.body.callees

/-- A name is reached from the calls of a module, through the calls of definitions. -/
def Reaches (m : Module) (definitions : Ledger String (Definition Module)) (name : String) : Prop :=
  ∃ root ∈ m.callees, Relation.ReflTransGen (Calls definitions) root name

/-- The symbols that the module has bodies for, in order. -/
def bodies (m : Module) : List String :=
  (m.procedures.filter fun p => !p.isDeclaration).map Procedure.symbol

/-- The modules that are brought together: the first one and those of the definitions after it. -/
def parts (m : Module) (definitions : Ledger String (Definition Module)) (linked : List String) :
    List Module :=
  m :: linked.tail.filterMap fun name => (definitions.get? name).map Definition.body

end Module

namespace Compiled

theorem mem_callees (h : Compiled m f) : name ∈ m.callees ↔ name ∈ f.body.callees := by
  obtain ⟨p, declared, hprocedures, hp, hdeclared⟩ := h.procedures
  have hnone : ∀ q ∈ declared, q.callees = [] := by
    intro q hq
    rcases hdeclared.new q hq with hold | ⟨hbody, _⟩
    · cases hold
    · simp [Procedure.callees, hbody]
  have hcallees : m.callees = p.callees := by
    rw [Module.callees, hprocedures, List.flatMap_cons, List.flatMap_eq_nil_iff.2 hnone,
      List.append_nil]
  rw [hcallees]
  exact hp.calls name

theorem bodies_eq (h : Compiled m f) : m.bodies = [m.name] := by
  obtain ⟨p, declared, hprocedures, hp, hdeclared⟩ := h.procedures
  have hnone : declared.filter (fun q => !q.isDeclaration) = [] := by
    refine List.filter_eq_nil_iff.2 fun q hq => ?_
    rcases hdeclared.new q hq with hold | ⟨hbody, _⟩
    · cases hold
    · simp [Procedure.isDeclaration, hbody]
  have hbodied : p.isDeclaration = false := by
    rw [Procedure.isDeclaration, Option.isNone_eq_false_iff]
    exact Option.isSome_iff_ne_none.2 hp.bodied
  simp [Module.bodies, hprocedures, hnone, hbodied, hp.symbol, h.name]

theorem reaches_iff (h : Compiled m f) (hs : s.Kept (lower depth)) :
    m.Reaches s.definitions name ↔ Functions.Reaches s.functions f.body name := by
  have hcalls : Module.Calls s.definitions = Functions.Calls s.functions := by
    funext caller callee
    apply propext
    constructor
    · rintro ⟨d, hd, hcallee⟩
      refine ⟨d.function, ?_, (compiled_of_kept hs hd).mem_callees.1 hcallee⟩
      rw [Store.get?_functions, hd, Option.map_some]
    · rintro ⟨g, hg, hcallee⟩
      obtain ⟨d, hd, rfl⟩ := Store.exists_definition hg
      exact ⟨d, hd, (compiled_of_kept hs hd).mem_callees.2 hcallee⟩
  simp only [Module.Reaches, Functions.Reaches, hcalls, h.mem_callees]

end Compiled

/-! ### Numbers of parameters -/

/-- Each procedure of the module has as many parameters as its signature says. Only the wrapper of a
bare expression has no signature, and no parameters. -/
def Module.Conforms (m : Module) (signatures : Signatures) : Prop :=
  ∀ q ∈ m.procedures, q.symbol = anonymousSymbol ∧ q.params = [] ∨
    ∃ p, signatures.get? q.symbol = some p ∧ p.arity = q.params.length

theorem Module.Conforms.extend {later earlier : Signatures} (h : m.Conforms earlier)
    (he : later.Extends earlier) : m.Conforms later := by
  intro q hq
  rcases h q hq with hanonymous | ⟨p, hp, harity⟩
  · exact Or.inl hanonymous
  · obtain ⟨p', hp', harity'⟩ := he _ _ hp
    exact Or.inr ⟨p', hp', harity'.trans harity⟩

theorem Module.Conforms.length_eq {signatures : Signatures} (hwords : Worded signatures)
    {other : Module} (h : m.Conforms signatures) (h' : other.Conforms signatures) {p q : Procedure}
    (hp : p ∈ m.procedures) (hq : q ∈ other.procedures) (hsymbol : p.symbol = q.symbol) :
    p.params.length = q.params.length := by
  have hword : ∀ {symbol known}, signatures.get? symbol = some known →
      symbol ≠ anonymousSymbol := by
    rintro _ known hknown rfl
    exact not_isWord_anonymousSymbol (hwords _ _ hknown).1
  rcases h p hp with ⟨hown, hnone⟩ | ⟨known, hknown, harity⟩
  · rcases h' q hq with ⟨_, hnone'⟩ | ⟨known, hknown, _⟩
    · rw [hnone, hnone']
    · exact absurd (hsymbol.symm.trans hown) (hword hknown)
  · rcases h' q hq with ⟨hown, _⟩ | ⟨known', hknown', harity'⟩
    · exact absurd (hsymbol.trans hown) (hword hknown)
    · rw [hsymbol, hknown'] at hknown
      cases hknown
      exact harity.symm.trans harity'

theorem conforms_of_lower {signatures : Signatures} (hf : f.prototype.Regular)
    (hown : f.prototype.isAnonymous = false →
      signatures.get? f.prototype.name = some f.prototype)
    (h : lower depth signatures f = .ok m) : m.Conforms signatures := by
  obtain ⟨label, b, result, rfl, hsound, _⟩ := built_of_lower hf h
  intro q hq
  rcases List.mem_cons.1 hq with rfl | hq
  · rcases hf.name with hword | ⟨hempty, hparams⟩
    · have hnamed : f.prototype.isAnonymous = false := Store.named_of_ne hword.1
      exact Or.inr ⟨f.prototype, by rw [symbolOf_of_isWord hword, hown hnamed], rfl⟩
    · exact Or.inl ⟨symbolOf_of_anonymous ((Store.isAnonymous_iff _).2 hempty), hparams⟩
  · obtain ⟨p, hp, hdeclaration⟩ := hsound.declared q hq
    refine Or.inr ⟨p, hp, ?_⟩
    rw [hdeclaration, length_declaration]

theorem known_of_lower {signatures : Signatures} (hf : f.prototype.Regular)
    (h : lower depth signatures f = .ok m) (hname : name ∈ f.body.callees) :
    ∃ p, signatures.get? name = some p := by
  obtain ⟨label, b, result, _, hsound, _, _, hcalls⟩ := built_of_lower hf h
  obtain ⟨instruction, hmem, hcallee⟩ := List.mem_filterMap.1 ((hcalls name).2 hname)
  cases instruction with
  | call own callee args =>
    cases hcallee
    obtain ⟨p, hp, _⟩ := hsound.calls own name args hmem
    exact ⟨p, hp⟩
  | arithmetic own op lhs rhs => cases hcallee
  | compare own lhs rhs => cases hcallee
  | widen own bit => cases hcallee

/-! ### Functions that linking starts from -/

/-- A function that linking can start from: it was returned for a prototype as they are read. -/
structure Startable (depth : Nat) (s : Store Module) (d : Definition Module) : Prop where
  regular : d.function.prototype.Regular
  returned : d.Returned (lower depth) s

namespace Startable

variable {d : Definition Module}

theorem compiled (h : Startable depth s d) : Compiled d.body d.function := by
  obtain ⟨earlier, hbody, _⟩ := h.returned.lowered
  exact compiled_of_lower h.regular hbody

theorem conforms (h : Startable depth s d) : d.body.Conforms s.signatures := by
  obtain ⟨earlier, hbody, hextends, hown⟩ := h.returned.lowered
  exact (conforms_of_lower h.regular hown hbody).extend hextends

/-- Every name that is reached is declared, since what calls it was accepted. -/
theorem known_of_reaches (h : Startable depth s d) (hs : s.Kept (lower depth))
    (hreached : Functions.Reaches s.functions d.function.body name) :
    ∃ p, s.signatures.get? name = some p := by
  obtain ⟨root, hroot, hpath⟩ := hreached
  cases hpath with
  | refl =>
    obtain ⟨earlier, hbody, hextends, _⟩ := h.returned.lowered
    obtain ⟨p, hp⟩ := known_of_lower h.regular hbody hroot
    obtain ⟨q, hq, _⟩ := hextends _ _ hp
    exact ⟨q, hq⟩
  | tail _ hcalls =>
    obtain ⟨g, hg, hcallee⟩ := hcalls
    obtain ⟨e, he, rfl⟩ := Store.exists_definition hg
    obtain ⟨earlier, hbody, hextends⟩ := (hs _ e he).lowered
    obtain ⟨p, hp⟩ := known_of_lower (hs _ e he).regular hbody hcallee
    obtain ⟨q, hq, _⟩ := hextends _ _ hp
    exact ⟨q, hq⟩

/-- If what linking starts from is reached or defined under its own symbol, it is the definition of
that symbol. -/
theorem of_symbol (h : Startable depth s d) (hwords : Worded s.signatures)
    (hknown : ∃ p, s.signatures.get? (symbolOf d.function.prototype) = some p) :
    s.definitions.get? (symbolOf d.function.prototype) = some d := by
  rcases h.regular.name with hword | ⟨hempty, _⟩
  · rw [symbolOf_of_isWord hword]
    exact h.returned.kept (Store.named_of_ne hword.1)
  · obtain ⟨p, hp⟩ := hknown
    rw [symbolOf_of_anonymous ((Store.isAnonymous_iff _).2 hempty)] at hp
    exact absurd (hwords _ _ hp).1 not_isWord_anonymousSymbol

end Startable

/-! ### Where the rounds end -/

/-- Linking has come to its end for what was returned for a function. -/
structure Finished (depth : Nat) (s : Store Module) (d : Definition Module) (linked : List String)
    (whole : Module) : Prop where
  kept : s.Kept (lower depth)
  words : Worded s.signatures
  start : Startable depth s d
  rounds : Rounds s d.function linked whole
  done : whole.pending s.definitions linked = []

namespace Finished

variable {d : Definition Module}

/-- A declaration that is left is reached and has no definition. -/
theorem left (h : Finished depth s d linked whole) {p : Procedure} (hp : p ∈ whole.procedures)
    (hbody : p.body = none) :
    Functions.Reaches s.functions d.function.body p.symbol ∧ s.isDefined p.symbol = false := by
  have hroot := h.rounds.module.ne_root hp hbody
  exact ⟨(h.rounds.module.reached p hp).resolve_left hroot, h.rounds.complete h.done p hp hbody⟩

/-- The body that a reached name has in the linked module is that of its definition. -/
theorem implements (h : Finished depth s d linked whole) {p : Procedure}
    (hp : p ∈ whole.procedures) (hbody : p.body ≠ none)
    (hreached : Functions.Reaches s.functions d.function.body p.symbol) :
    ∃ e, s.definitions.get? p.symbol = some e ∧ Implements p e.function := by
  rcases h.rounds.module.genuine p hp with hnone | hroot | hdefined
  · exact absurd hnone hbody
  · have hknown := h.start.known_of_reaches h.kept hreached
    rw [hroot.symbol] at hknown ⊢
    exact ⟨d, h.start.of_symbol h.words hknown, hroot⟩
  · exact hdefined

/-- Everything that is reached is held: the callees of a procedure are, and where a defined name is
held it has its body. -/
theorem mem_symbols (h : Finished depth s d linked whole)
    (hreached : Functions.Reaches s.functions d.function.body name) : name ∈ whole.symbols := by
  obtain ⟨root, hroot, hpath⟩ := hreached
  induction hpath with
  | refl =>
    obtain ⟨p, hp, himplements⟩ := h.rounds.module.rooted
    exact h.rounds.module.held p hp root ((himplements.calls root).2 hroot)
  | @tail caller callee hbefore hcalls ih =>
    obtain ⟨g, hg, hcallee⟩ := hcalls
    obtain ⟨e, he, rfl⟩ := Store.exists_definition hg
    obtain ⟨p, hp, rfl⟩ := Module.mem_symbols.1 ih
    have hbody : p.body ≠ none := by
      intro hbody
      have hnew := (h.left hp hbody).2
      rw [Store.isDefined, Ledger.has, he] at hnew
      cases hnew
    obtain ⟨e', he', himplements⟩ := h.implements hp hbody ⟨root, hroot, hbefore⟩
    cases he.symm.trans he'
    exact h.rounds.module.held p hp callee ((himplements.calls callee).2 hcallee)

theorem mem_linked_iff (h : Finished depth s d linked whole) :
    name ∈ linked ↔ name = d.body.name ∨
      s.isDefined name = true ∧ Functions.Reaches s.functions d.function.body name := by
  obtain ⟨rest, hlinked, hrest⟩ := h.rounds.known
  rw [h.start.compiled.name]
  constructor
  · intro hname
    by_cases hroot : name = symbolOf d.function.prototype
    · exact Or.inl hroot
    · obtain ⟨p, hp, rfl, _⟩ := (h.rounds.bodied name).2 hname
      have hreached := (h.rounds.module.reached p hp).resolve_left hroot
      rw [hlinked] at hname
      exact Or.inr ⟨hrest _ ((List.mem_cons.1 hname).resolve_left hroot), hreached⟩
  · rintro (rfl | ⟨hdefined, hreached⟩)
    · rw [hlinked]
      exact List.mem_cons_self ..
    · obtain ⟨p, hp, rfl⟩ := Module.mem_symbols.1 (h.mem_symbols hreached)
      refine (h.rounds.bodied _).1 ⟨p, hp, rfl, fun hbody => ?_⟩
      rw [(h.left hp hbody).2] at hdefined
      cases hdefined

theorem left_iff (h : Finished depth s d linked whole) :
    (∃ p ∈ whole.procedures, p.isDeclaration = true ∧ p.symbol = name) ↔
      Functions.Reaches s.functions d.function.body name ∧ s.isDefined name = false := by
  constructor
  · rintro ⟨p, hp, hbody, rfl⟩
    exact h.left hp (Option.isNone_iff_eq_none.1 hbody)
  · rintro ⟨hreached, hnew⟩
    obtain ⟨p, hp, rfl⟩ := Module.mem_symbols.1 (h.mem_symbols hreached)
    refine ⟨p, hp, Option.isNone_iff_eq_none.2 ?_, rfl⟩
    by_contra hbody
    obtain ⟨e, he, _⟩ := h.implements hp hbody hreached
    rw [Store.isDefined, Ledger.has, he] at hnew
    cases hnew

end Finished

/-! ### The modules that are brought together -/

namespace Module

theorem mem_declareFrom {other : Module} {wanted : List String} {p : Procedure}
    (hp : p ∈ (m.declareFrom other wanted).procedures) :
    p ∈ m.procedures ∨ p ∈ other.procedures := by
  obtain ⟨added, hadded, hfrom⟩ := (declareFrom_filled m other wanted).procedures
  rw [hadded] at hp
  rcases List.mem_append.1 hp with hp | hp
  · exact Or.inl hp
  · exact Or.inr (hfrom p hp).1

theorem mem_absorb {other : Module} {p : Procedure}
    (hp : p ∈ (m.absorb other name).procedures) : p ∈ m.procedures ∨ p ∈ other.procedures := by
  unfold absorb at hp
  split at hp
  · exact Or.inl hp
  · next q hq =>
    rcases mem_declareFrom hp with hp | hp
    · rcases List.mem_append.1 hp with hp | hp
      · exact Or.inl (List.mem_filter.1 hp).1
      · obtain rfl := List.mem_singleton.1 hp
        exact Or.inr (find?_eq_some hq).1
    · exact Or.inr hp

theorem mem_absorbAll {definitions : Ledger String (Definition Module)} {symbols : List String}
    {p : Procedure} (hp : p ∈ (m.absorbAll definitions symbols).procedures) :
    p ∈ m.procedures ∨
      ∃ name ∈ symbols, ∃ d, definitions.get? name = some d ∧ p ∈ d.body.procedures := by
  induction symbols generalizing m with
  | nil => exact Or.inl hp
  | cons symbol rest ih =>
    rw [absorbAll, List.foldl_cons] at hp
    rcases ih hp with hp | ⟨name, hname, hfrom⟩
    · cases hd : definitions.get? symbol with
      | none =>
        rw [hd] at hp
        exact Or.inl hp
      | some d =>
        rw [hd] at hp
        rcases mem_absorb hp with hp | hp
        · exact Or.inl hp
        · exact Or.inr ⟨symbol, List.mem_cons_self .., d, hd, hp⟩
    · exact Or.inr ⟨name, List.mem_cons_of_mem _ hname, hfrom⟩

theorem name_declareFrom (m other : Module) (wanted : List String) :
    (m.declareFrom other wanted).name = m.name := by
  induction wanted generalizing m with
  | nil => rfl
  | cons symbol rest ih =>
    rw [declareFrom_cons, ih, declareOne]
    split
    · rfl
    · rfl

theorem name_absorbAll (definitions : Ledger String (Definition Module)) (symbols : List String) :
    (m.absorbAll definitions symbols).name = m.name := by
  induction symbols generalizing m with
  | nil => rfl
  | cons symbol rest ih =>
    rw [absorbAll, List.foldl_cons]
    refine ih.trans ?_
    cases definitions.get? symbol with
    | none => rfl
    | some d =>
      simp only [absorb]
      split
      · rfl
      · exact name_declareFrom ..

theorem mem_parts {definitions : Ledger String (Definition Module)} {part : Module} :
    part ∈ m.parts definitions linked ↔ part = m ∨
      ∃ name ∈ linked.tail, ∃ d, definitions.get? name = some d ∧ d.body = part := by
  simp only [parts, List.mem_cons, List.mem_filterMap, Option.map_eq_some_iff]

theorem unresolvedIn_eq_some {present : String → Bool} (h : m.unresolvedIn present = some name) :
    (∃ p ∈ m.procedures, p.isDeclaration = true ∧ p.symbol = name) ∧ present name = false := by
  obtain ⟨p, hp, rfl⟩ := Option.map_eq_some_iff.1 h
  have hfound := List.find?_some hp
  rw [Bool.and_eq_true, Bool.not_eq_true'] at hfound
  exact ⟨⟨p, List.mem_of_find?_eq_some hp, hfound.1, rfl⟩, hfound.2⟩

theorem unresolvedIn_eq_none {present : String → Bool} (h : m.unresolvedIn present = none) :
    ∀ p ∈ m.procedures, p.isDeclaration = true → present p.symbol = true := by
  intro p hp hbody
  have hnot := List.find?_eq_none.1 (Option.map_eq_none_iff.1 h) p hp
  simpa [hbody] using hnot

end Module

/-- What is linked in the rounds comes behind what was linked before, and every procedure is one of
the modules that were brought together. -/
theorem Links.added {definitions : Ledger String (Definition Module)} {final : List String}
    (h : Links definitions linked m final whole) :
    ∃ added, final = linked ++ added ∧ ∀ p ∈ whole.procedures, p ∈ m.procedures ∨
      ∃ name ∈ added, ∃ d, definitions.get? name = some d ∧ p ∈ d.body.procedures := by
  induction h with
  | done _ => exact ⟨[], (List.append_nil _).symm, fun p hp => Or.inl hp⟩
  | @round linked final m whole _ _ ih =>
    obtain ⟨added, hfinal, hfrom⟩ := ih
    refine ⟨m.pending definitions linked ++ added, by rw [hfinal, List.append_assoc], ?_⟩
    intro p hp
    rcases hfrom p hp with hp | ⟨name, hname, hd⟩
    · rcases Module.mem_absorbAll hp with hp | ⟨name, hname, hd⟩
      · exact Or.inl hp
      · exact Or.inr ⟨name, List.mem_append_left _ hname, hd⟩
    · exact Or.inr ⟨name, List.mem_append_right _ hname, hd⟩

theorem Links.name_eq {definitions : Ledger String (Definition Module)} {final : List String}
    (h : Links definitions linked m final whole) : whole.name = m.name := by
  induction h with
  | done _ => rfl
  | round _ _ ih => exact ih.trans (Module.name_absorbAll ..)

/-- Each of the modules that are brought together has one body, of the symbol that it is linked
for. -/
theorem bodies_of_definitions (hs : s.Kept (lower depth)) {names : List String}
    (hnames : ∀ name ∈ names, s.definitions.has name = true) :
    (names.filterMap fun name => (s.definitions.get? name).map Definition.body).flatMap
      Module.bodies = names := by
  induction names with
  | nil => rfl
  | cons name rest ih =>
    obtain ⟨hname, hrest⟩ := List.forall_mem_cons.1 hnames
    obtain ⟨d, hd⟩ := Option.isSome_iff_exists.1 hname
    have hcompiled := compiled_of_kept hs hd
    have hbodies : d.body.bodies = [name] := by
      rw [hcompiled.bodies_eq, hcompiled.name, symbolOf_of_kept hs hd]
    simp only [List.filterMap_cons, hd, Option.map_some, List.flatMap_cons, hbodies, ih hrest,
      List.cons_append, List.nil_append]

theorem launch_unresolved_iff {runtime : Runtime} {symbol : String} :
    launch runtime s m = .error (.unresolved symbol .process) ↔
      runtime.linkComplaint? (m.link s.definitions) = none ∧
        (m.link s.definitions).unresolvedIn runtime.resolves = some symbol := by
  cases hcomplaint : runtime.linkComplaint? (m.link s.definitions) with
  | some complaint => simp [launch, hcomplaint]
  | none =>
    cases hunresolved : (m.link s.definitions).unresolvedIn runtime.resolves with
    | some other => simp [launch, hcomplaint, hunresolved]
    | none =>
      cases hstart : runtime.start (m.link s.definitions) m.name with
      | _ => simp [launch, hcomplaint, hunresolved, hstart]

/-! ### Any handle -/

/-- What linking the module of a handle comes to. The loop ends, and has linked each definition that
the module reaches through call instructions once and no other. Each of the modules brings one body,
they agree on numbers of parameters, and the outcome consists of their procedures. What is left
without a body is what is reached and has no definition. -/
structure Brings (s : Store Module) (m : Module) (linked : List String) (whole : Module) :
    Prop where
  ends : Links s.definitions [m.name] m linked whole
  once : linked.Nodup
  reached : ∀ name, name ∈ linked ↔
    name = m.name ∨ s.isDefined name = true ∧ m.Reaches s.definitions name
  bodies : (m.parts s.definitions linked).flatMap Module.bodies = linked
  arities : ∀ first ∈ m.parts s.definitions linked, ∀ second ∈ m.parts s.definitions linked,
    ∀ p ∈ first.procedures, ∀ q ∈ second.procedures, p.symbol = q.symbol →
      p.params.length = q.params.length
  symbols : whole.symbols.Nodup
  bodied : ∀ name, whole.Bodied name ↔ name ∈ linked
  origin : ∀ p ∈ whole.procedures, ∃ part ∈ m.parts s.definitions linked, p ∈ part.procedures
  left : ∀ name, (∃ p ∈ whole.procedures, p.isDeclaration = true ∧ p.symbol = name) ↔
    m.Reaches s.definitions name ∧ s.isDefined name = false

theorem brings_of_links {d : Definition Module} (hs : s.Kept (lower depth))
    (hwords : Worded s.signatures) (hd : Startable depth s d)
    (hstored : ∀ name e, s.definitions.get? name = some e → Startable depth s e)
    (hlinks : Links s.definitions [d.body.name] d.body linked whole) :
    Brings s d.body linked whole := by
  obtain ⟨hrounds, hdone⟩ := hlinks.rounds hs (.start hd.compiled)
  have hfinished : Finished depth s d linked whole := ⟨hs, hwords, hd, hrounds, hdone⟩
  obtain ⟨rest, hlinked, hrest⟩ := hrounds.known
  have hconforms : ∀ part ∈ d.body.parts s.definitions linked, part.Conforms s.signatures := by
    intro part hpart
    rcases Module.mem_parts.1 hpart with rfl | ⟨name, _, e, he, rfl⟩
    · exact hd.conforms
    · exact (hstored name e he).conforms
  refine ⟨hlinks, hrounds.distinct, fun name => ?_, ?_, ?_, hrounds.module.distinct,
    hrounds.bodied, ?_, fun name => ?_⟩
  · rw [hd.compiled.reaches_iff hs]
    exact hfinished.mem_linked_iff
  · rw [Module.parts, List.flatMap_cons, hd.compiled.bodies_eq, hlinked, List.tail_cons,
      bodies_of_definitions hs hrest, hd.compiled.name]
    rfl
  · intro first hfirst second hsecond p hp q hq hsymbol
    exact (hconforms first hfirst).length_eq hwords (hconforms second hsecond) hp hq hsymbol
  · intro p hp
    obtain ⟨added, hfinal, hfrom⟩ := hlinks.added
    rcases hfrom p hp with hp | ⟨name, hname, e, he, hp⟩
    · exact ⟨d.body, Module.mem_parts.2 (Or.inl rfl), hp⟩
    · refine ⟨e.body, Module.mem_parts.2 (Or.inr ⟨name, ?_, e, he, rfl⟩), hp⟩
      rw [hfinal]
      exact hname
  · rw [hd.compiled.reaches_iff hs]
    exact hfinished.left_iff

namespace Brings

variable {present : String → Bool}

theorem missing_of_unresolved (h : Brings s m linked whole)
    (hname : whole.unresolvedIn present = some name) :
    m.Reaches s.definitions name ∧ s.isDefined name = false ∧ present name = false := by
  obtain ⟨hleft, habsent⟩ := Module.unresolvedIn_eq_some hname
  obtain ⟨hreached, hnew⟩ := (h.left name).1 hleft
  exact ⟨hreached, hnew, habsent⟩

theorem isSome_unresolvedIn (h : Brings s m linked whole) :
    (whole.unresolvedIn present).isSome = true ↔
      ∃ name, m.Reaches s.definitions name ∧ s.isDefined name = false ∧ present name = false := by
  constructor
  · intro hsome
    obtain ⟨name, hname⟩ := Option.isSome_iff_exists.1 hsome
    exact ⟨name, h.missing_of_unresolved hname⟩
  · rintro ⟨name, hreached, hnew, habsent⟩
    obtain ⟨p, hp, hbody, rfl⟩ := (h.left name).2 ⟨hreached, hnew⟩
    by_contra hnone
    have hpresent := Module.unresolvedIn_eq_none (by simpa using hnone) p hp hbody
    rw [hpresent] at habsent
    cases habsent

/-- Modules that are well formed are brought together to a well-formed one, if it holds what its
procedures call. -/
theorem wellFormed (h : Brings s m linked whole)
    (hparts : ∀ part ∈ m.parts s.definitions linked, part.WellFormed)
    (hheld : ∀ p ∈ whole.procedures, ∀ callee ∈ p.callees, callee ∈ whole.symbols) :
    whole.WellFormed where
  name := by
    rw [h.ends.name_eq]
    exact (hparts m (Module.mem_parts.2 (Or.inl rfl))).name
  distinct := h.symbols
  symbols p hp := by
    obtain ⟨part, hpart, hin⟩ := h.origin p hp
    exact (hparts part hpart).symbols p hin
  params p hp := by
    obtain ⟨part, hpart, hin⟩ := h.origin p hp
    exact (hparts part hpart).params p hin
  blocks p hp block hblock := by
    obtain ⟨part, hpart, hin⟩ := h.origin p hp
    have hown := (hparts part hpart).blocks p hin block hblock
    refine ⟨hown.distinct, hown.plain, hown.ordered, hown.result,
      fun result callee args hcall => ?_⟩
    obtain ⟨q, hq, rfl, hlength⟩ := hown.answered result callee args hcall
    have hcallee : q.symbol ∈ p.callees := by
      rw [Procedure.callees, hblock]
      exact List.mem_filterMap.2 ⟨_, hcall, rfl⟩
    obtain ⟨r, hr, hsymbol⟩ := Module.mem_symbols.1 (hheld p hp _ hcallee)
    obtain ⟨other, hother, hfrom⟩ := h.origin r hr
    exact ⟨r, hr, hsymbol, (h.arities other hother part hpart r hfrom q hq hsymbol).trans hlength⟩

end Brings

/-! ### Histories -/

section Histories

variable {runtime : Runtime} {history : List (Request (Handle Module))} {d : Definition Module}

theorem lower_of_compile (signatures : Signatures) (f : Function) (m : Module)
    (h : compile runtime depth signatures f = .ok m) : lower depth signatures f = .ok m :=
  (compile_eq_ok.1 h).1

theorem serve_kept (hhistory : ∀ request ∈ history, request.Read) :
    ((engine depth runtime).serve {} history).2.Kept (lower depth) :=
  (Engine.serve_kept (onStore runtime depth) Store.kept_empty Store.closed_empty
    fun f hf => Form.Read.regular (hhistory (.define f) hf)).mono lower_of_compile

/-- A module that is returned was lowered under signatures as they can be read. -/
theorem perform_wellFormed (hwords : Worded s.signatures) (hs : s.Closed)
    {request : Request (Handle Module)} (hread : request.Read) {l : Lowered (Handle Module)}
    (hl : ((engine depth runtime).perform s request).1 = .lowered l) (hd : l.handle = .defined d) :
    d.body.WellFormed := by
  have hengine := onStore runtime depth
  rcases hengine.perform_cases hs request with
    ⟨answer, hr, hno⟩ | ⟨p, l', after, rfl, hdeclare, hr⟩ | ⟨f, l', after, rfl, hdefine, hr⟩
  · rw [hr] at hl
    exact absurd hl (hno l)
  · rw [hr] at hl
    cases hl
    rcases Store.declare_ok hdeclare with ⟨_, _, _, hl', _⟩ | ⟨_, hl', _⟩
    · rw [hd] at hl'
      cases hl'
    · rw [hd] at hl'
      cases hl'
  · obtain ⟨_, m, hm, hl', _⟩ := Store.define_ok hs hdefine
    rw [hr] at hl
    cases hl
    obtain rfl : l'.handle = d := by simpa [Lowered.map] using hd
    have hregular : f.prototype.Regular := Form.Read.regular hread
    rw [hl']
    exact module_wellFormed_of_lower hregular (Store.worded_record hwords hregular)
      (fun ha => Store.get?_record_self ha) (compile_eq_ok.1 hm).1

theorem serve_wellFormed (hwords : Worded s.signatures) (hs : s.Closed)
    (hhistory : ∀ request ∈ history, request.Read)
    (hreturned : .defined d ∈ Answer.handles ((engine depth runtime).serve s history).1) :
    d.body.WellFormed := by
  have hengine := onStore runtime depth
  induction history generalizing s with
  | nil => cases hreturned
  | cons request rest ih =>
    obtain ⟨hread, hrest⟩ := List.forall_mem_cons.1 hhistory
    rw [Engine.serve_cons] at hreturned
    rcases Answer.handles_cons hreturned with ⟨l, hl, hd⟩ | hreturned
    · exact perform_wellFormed hwords hs hread hl hd
    · exact ih (Engine.perform_worded hengine hwords hs hread) (hengine.atomic.keeps s _ hs) hrest
        hreturned

/-- What was returned after a history of what has been read can be started from, and so can what is
in the store. -/
theorem startable_of_returned (hhistory : ∀ request ∈ history, request.Read)
    (hreturned : .defined d ∈ Answer.handles ((engine depth runtime).serve {} history).1) :
    Startable depth ((engine depth runtime).serve {} history).2 d := by
  obtain ⟨hrequest, hreturned⟩ :=
    Engine.serve_returned (onStore runtime depth) Store.closed_empty hreturned
  exact ⟨Form.Read.regular (hhistory _ hrequest), hreturned.mono lower_of_compile⟩

theorem worded_of_history (hhistory : ∀ request ∈ history, request.Read) :
    Worded ((engine depth runtime).serve {} history).2.signatures :=
  Engine.serve_worded (onStore runtime depth) worded_empty Store.closed_empty hhistory

theorem brings_of_returned (hhistory : ∀ request ∈ history, request.Read)
    (hreturned : .defined d ∈ Answer.handles ((engine depth runtime).serve {} history).1) :
    let s := ((engine depth runtime).serve {} history).2
    Brings s d.body (d.body.linkAll s.definitions).1 (d.body.link s.definitions) := by
  intro s
  have hs : s.Kept (lower depth) := serve_kept hhistory
  have hd : Startable depth s d := startable_of_returned hhistory hreturned
  have hchronicles :=
    Engine.serve_chronicles (onStore runtime depth) Store.chronicles_empty history
  exact brings_of_links hs (worded_of_history hhistory) hd
    (fun name e he => startable_of_returned hhistory (hchronicles.returned he))
    (links_linkAll hs hd.compiled)

/-- Linking what was returned after a history of what has been read gives a well-formed module. -/
theorem link_wellFormed (hhistory : ∀ request ∈ history, request.Read)
    (hreturned : .defined d ∈ Answer.handles ((engine depth runtime).serve {} history).1) :
    let s := ((engine depth runtime).serve {} history).2
    (d.body.link s.definitions).WellFormed := by
  intro s
  have hs : s.Kept (lower depth) := serve_kept hhistory
  have hd : Startable depth s d := startable_of_returned hhistory hreturned
  have hchronicles :=
    Engine.serve_chronicles (onStore runtime depth) Store.chronicles_empty history
  have hwellFormed : ∀ {e},
      .defined e ∈ Answer.handles ((engine depth runtime).serve {} history).1 →
      e.body.WellFormed := serve_wellFormed worded_empty Store.closed_empty hhistory
  refine (brings_of_returned hhistory hreturned).wellFormed (fun part hpart => ?_)
    (link_complete hs hd.compiled).1.held
  rcases Module.mem_parts.1 hpart with rfl | ⟨name, _, e, he, rfl⟩
  · exact hwellFormed hreturned
  · exact hwellFormed (hchronicles.returned he)

/-- No word names an instruction. -/
theorem Runtime.resolves_of_isWord (runtime : Runtime) (h : IsWord name) :
    runtime.resolves name = runtime.provides name := by
  have hpoint : isIntrinsic name = false := by
    by_contra hintrinsic
    have hprefix : "llvm.".toList <+: name.toList := by simpa [isIntrinsic] using hintrinsic
    have hmem : '.' ∈ name.toList := hprefix.subset (by decide)
    exact absurd (h.2 '.' hmem) (by decide)
  rw [resolves, hpoint, Bool.false_or]

end Histories

/-- After any history of what has been read and of executions, linking brings together what the
module of a returned definition reaches, and finds a symbol missing if and only if something is
reached that has neither a definition nor a symbol outside, whatever symbols there are. A runtime
that takes what is well formed refuses the run because of a missing symbol exactly then. -/
theorem linking_brings_in_what_is_reached (runtime : Runtime) (depth : Nat)
    {history : List (Request (Handle Module))} (hhistory : ∀ request ∈ history, request.Read)
    {d : Definition Module}
    (hreturned : .defined d ∈ Answer.handles ((engine depth runtime).serve {} history).1) :
    let s := ((engine depth runtime).serve {} history).2
    let whole := d.body.link s.definitions
    let missing := fun (present : String → Bool) name =>
      d.body.Reaches s.definitions name ∧ s.isDefined name = false ∧ present name = false
    Brings s d.body (d.body.linkAll s.definitions).1 whole ∧
    (∀ present, (∀ symbol, whole.unresolvedIn present = some symbol → missing present symbol) ∧
      ((whole.unresolvedIn present).isSome = true ↔ ∃ name, missing present name)) ∧
    (runtime.AcceptsWellFormed →
      ((∃ symbol, launch runtime s d.body = .error (.unresolved symbol .process)) ↔
        ∃ name, missing runtime.provides name)) := by
  intro s whole missing
  have hs : s.Kept (lower depth) := serve_kept hhistory
  have hd : Startable depth s d := startable_of_returned hhistory hreturned
  have hwords : Worded s.signatures := worded_of_history hhistory
  have hbrings : Brings s d.body (d.body.linkAll s.definitions).1 whole :=
    brings_of_returned hhistory hreturned
  refine ⟨hbrings, fun present => ⟨?_, hbrings.isSome_unresolvedIn⟩, fun haccepts => ?_⟩
  · intro symbol hsymbol
    exact hbrings.missing_of_unresolved hsymbol
  · have hpassed : runtime.linkComplaint? whole = none :=
      haccepts.linkComplaint whole (link_wellFormed hhistory hreturned)
    -- What is reached is declared, and so it is a word.
    have hresolves : ∀ name, missing runtime.resolves name ↔ missing runtime.provides name := by
      intro name
      refine and_congr_right fun hreached => ?_
      obtain ⟨p, hp⟩ := hd.known_of_reaches hs ((hd.compiled.reaches_iff hs).1 hreached)
      rw [runtime.resolves_of_isWord (hwords _ _ hp).1]
    simp only [launch_unresolved_iff]
    rw [← exists_congr hresolves, ← hbrings.isSome_unresolvedIn, Option.isSome_iff_exists]
    exact exists_congr fun symbol => and_iff_right hpassed

set_option maxRecDepth 20000 in
theorem mutual_calls_linked :
    let source := "extern g(x) extern sin(x) def f(x) g(x) + sin(x) def g(x) f(x) < x " ++
      "def h(x) h(x) * f(x)"
    (match (Parse.all .standard 9).result (.ofSource "" source.toList) with
      | .ok forms =>
        match ((engine 9).serve {} (forms.map .ofForm)).1 with
        | [_, _, _, _, .lowered ⟨.defined d, _⟩] =>
          let s := ((engine 9).serve {} (forms.map .ofForm)).2
          ((d.body.linkAll s.definitions).1, (d.body.link s.definitions).symbols)
        | _ => ([], [])
      | .error _ => ([], [])) = (["h", "f", "g"], ["h", "f", "sin", "g"]) := by cbv

/-- Two functions that call each other, one of them defined after the other was lowered, and a
native one that is left. -/
theorem linking_brings_in_what_is_reached_mutual_calls :
    let source := "extern g(x) extern sin(x) def f(x) g(x) + sin(x) def g(x) f(x) < x " ++
      "def h(x) h(x) * f(x)"
    ∃ forms d, (Parse.all .standard 9).result (.ofSource "" source.toList) = .ok forms ∧
      .defined d ∈ Answer.handles ((engine 9).serve {} (forms.map .ofForm)).1 ∧
      let s := ((engine 9).serve {} (forms.map .ofForm)).2
      (d.body.linkAll s.definitions).1 = ["h", "f", "g"] ∧
        (d.body.link s.definitions).symbols = ["h", "f", "sin", "g"] ∧
        Brings s d.body (d.body.linkAll s.definitions).1 (d.body.link s.definitions) := by
  intro source
  have hlinked := mutual_calls_linked
  dsimp only at hlinked
  split at hlinked
  · next forms hforms =>
    split at hlinked
    · next d log hanswers =>
      have hreturned : .defined d ∈
          Answer.handles ((engine 9).serve {} (forms.map .ofForm)).1 := by
        rw [hanswers]
        exact Answer.mem_handles (l := ⟨Handle.defined d, log⟩) (List.mem_of_getLast? rfl)
      have hmain := linking_brings_in_what_is_reached .standard 9
        (Request.read_of_forms (Parse.read_of_all hforms)) hreturned
      simp only [Prod.mk.injEq] at hlinked
      exact ⟨forms, d, hforms, hreturned, hlinked.1, hlinked.2, hmain.1⟩
    · cases hlinked
  · cases hlinked

end ScalarLang.IR
