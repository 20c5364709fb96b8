import ScalarLang.Proofs.IR.WellFormed

/-!
# Modules that pass verification

A runtime may complain about a module, and then its function is rejected. What it has to take is a
well-formed module: one in which names are given once and before they are used, and every call is
answered by a procedure with as many parameters. The modules of functions that are read are well
formed, so on forms as they are read all runtimes that take what is well formed go the same way.
-/
namespace ScalarLang

/-- Lowering that gives the same under the signatures of the moment defines the same. -/
theorem Store.define_congr {β : Type} {lower other : Signatures → Function → Except Rejection β}
    {f : Function} {s : Store β} (hs : s.Closed)
    (h : lower (s.record f.prototype).signatures f = other (s.record f.prototype).signatures f) :
    define lower f s = define other f s := by
  rw [define_eq lower f hs, define_eq other f hs]
  cases he : s.enroll f.prototype with
  | error rejection => rfl
  | ok enrolled =>
    obtain rfl := enroll_eq_record he
    simp only [h]

namespace IR

/-! ### Well-formed modules -/

/-- A symbol that a procedure can have: that of a bare expression, or a word. -/
def IsSymbol (name : String) : Prop := name = anonymousSymbol ∨ IsWord name

/-- A block of a procedure in a module: its names are plain and given once and before they are used,
and each call passes as many arguments as a procedure of the module has parameters. -/
structure Block.WellFormed (m : Module) (params : List String) (block : Block) : Prop where
  distinct : (params ++ block.label :: block.instructions.map Instruction.result).Nodup
  plain : ∀ name ∈ params ++ block.label :: block.instructions.map Instruction.result, IsPlain name
  ordered : Ordered params block.instructions
  result : block.result.Known (params ++ doublesOf block.instructions)
  answered : ∀ result callee args, .call result callee args ∈ block.instructions →
    ∃ p ∈ m.procedures, p.symbol = callee ∧ p.params.length = args.length

structure Module.WellFormed (m : Module) : Prop where
  name : IsSymbol m.name
  distinct : m.symbols.Nodup
  symbols : ∀ p ∈ m.procedures, IsSymbol p.symbol
  params : ∀ p ∈ m.procedures, ∀ param ∈ p.params, IsPlain param
  blocks : ∀ p ∈ m.procedures, ∀ block, p.body = some block → block.WellFormed m p.params

theorem isSymbol_symbolOf {p : Prototype} (h : p.Regular) : IsSymbol (symbolOf p) := by
  rcases h.name with hword | ⟨hempty, _⟩
  · rw [symbolOf_of_isWord hword]
    exact Or.inr hword
  · exact Or.inl (symbolOf_of_anonymous ((Store.isAnonymous_iff p).2 hempty))

theorem plain_of_declaration {symbol : String} {p : Prototype} (h : p.Regular) :
    ∀ param ∈ (declaration symbol p).params, IsPlain param := by
  obtain ⟨names, hnames, _⟩ := paramNames_eq h.distinct h.params
  intro param hparam
  rw [declaration, hnames] at hparam
  exact isPlain_of_isWord (h.params param hparam)

variable {depth : Nat} {signatures : Signatures} {f : Function} {m : Module}

theorem module_wellFormed_of_lower (hf : f.prototype.Regular) (hwords : Worded signatures)
    (hown : f.prototype.isAnonymous = false →
      signatures.get? f.prototype.name = some f.prototype)
    (h : lower depth signatures f = .ok m) : m.WellFormed := by
  obtain ⟨block, others, hm, hform⟩ := wellFormed_of_lower hf hwords hown h
  obtain ⟨label, b, result, rfl, hsound, _⟩ := built_of_lower hf h
  cases hm
  have hdeclared : ∀ q ∈ b.declared, ∃ p, IsWord q.symbol ∧ p.Regular ∧
      q = declaration q.symbol p := by
    intro q hq
    obtain ⟨p, hp, hdeclaration⟩ := hsound.declared q hq
    obtain ⟨hword, hregular⟩ := hwords _ _ hp
    exact ⟨p, hword, hregular, hdeclaration⟩
  refine ⟨isSymbol_symbolOf hf, ?_, ?_, ?_, ?_⟩
  · refine List.nodup_cons.2 ⟨fun hmem => ?_, hform.once⟩
    obtain ⟨q, hq, hsymbol⟩ := List.mem_map.1 hmem
    exact (hform.declared q hq).2 hsymbol
  · refine List.forall_mem_cons.2 ⟨isSymbol_symbolOf hf, fun q hq => ?_⟩
    obtain ⟨_, hword, _⟩ := hdeclared q hq
    exact Or.inr hword
  · refine List.forall_mem_cons.2 ⟨fun param hparam => ?_, fun q hq => ?_⟩
    · exact isPlain_of_isWord (hf.params param hparam)
    · obtain ⟨p, _, hregular, hdeclaration⟩ := hdeclared q hq
      rw [hdeclaration]
      exact plain_of_declaration hregular
  · refine List.forall_mem_cons.2 ⟨fun block hblock => ?_, fun q hq block hblock => ?_⟩
    · cases hblock
      refine ⟨hform.distinct, hsound.plain, hform.ordered, hform.result,
        fun own callee args hcall => ?_⟩
      rcases hform.answered own callee args hcall with ⟨rfl, hlength⟩ | ⟨p, hp, hanswer⟩
      · exact ⟨_, List.mem_cons_self .., rfl, hlength⟩
      · exact ⟨p, List.mem_cons_of_mem _ hp, hanswer⟩
    · rw [(hform.declared q hq).1] at hblock
      cases hblock

/-! ### Runtimes that take what is well formed -/

structure Runtime.AcceptsWellFormed (runtime : Runtime) : Prop where
  complaint : ∀ m : Module, m.WellFormed → runtime.complaint? m = none
  linkComplaint : ∀ m : Module, m.WellFormed → runtime.linkComplaint? m = none

theorem Runtime.standard_accepts : standard.AcceptsWellFormed := ⟨fun _ _ => rfl, fun _ _ => rfl⟩

theorem Runtime.start_standard {m : Module} {symbol : String} {x : Float}
    (h : m.run symbol = some x) : standard.start m symbol = .value x := by
  simp only [standard, h]

variable {runtime : Runtime} {s : Store Module} {forms : List Form} {form : Form}

theorem compile_eq_lower (haccepts : runtime.AcceptsWellFormed) (hf : f.prototype.Regular)
    (hwords : Worded signatures) (hown : f.prototype.isAnonymous = false →
      signatures.get? f.prototype.name = some f.prototype) :
    compile runtime depth signatures f = lower depth signatures f := by
  cases h : lower depth signatures f with
  | error rejection => rw [compile, h]; rfl
  | ok m =>
    have hm := module_wellFormed_of_lower hf hwords hown h
    exact compile_eq_ok.2 ⟨h, haccepts.complaint m hm⟩

theorem compile_standard (depth : Nat) : compile .standard depth = lower depth := by
  funext signatures f
  rw [compile]
  cases lower depth signatures f with
  | error rejection => rfl
  | ok m => rfl

theorem standard_onStore (depth : Nat) : (engine depth).OnStore (lower depth) :=
  compile_standard depth ▸ onStore .standard depth

theorem define_eq_lower (haccepts : runtime.AcceptsWellFormed) (depth : Nat)
    (hwords : Worded s.signatures) (hs : s.Closed) (hf : f.prototype.Regular) :
    Store.define (compile runtime depth) f s = Store.define (lower depth) f s :=
  Store.define_congr hs <| compile_eq_lower haccepts hf (Store.worded_record hwords hf)
    fun ha => Store.get?_record_self ha

/-- A form that is read is answered as by the runtime that takes modules as they are. -/
theorem perform_form_eq (haccepts : runtime.AcceptsWellFormed) (depth : Nat)
    (hwords : Worded s.signatures) (hs : s.Closed) (hform : form.Read) :
    (engine depth runtime).perform s (.ofForm form) = (engine depth).perform s (.ofForm form) := by
  cases form with
  | external p => rfl
  | function f =>
    have hsame : Store.define (compile runtime depth) f s =
        Store.define (compile .standard depth) f s := by
      rw [compile_standard, define_eq_lower haccepts depth hwords hs hform.regular]
    have hdefine : (engine depth runtime).define f s = (engine depth).define f s :=
      step_map_congr _ hsame
    simp only [Request.ofForm, Engine.perform, hdefine]

theorem serve_forms_eq (haccepts : runtime.AcceptsWellFormed) (depth : Nat)
    (hwords : Worded s.signatures) (hs : s.Closed) (hforms : ∀ form ∈ forms, form.Read) :
    (engine depth runtime).serve s (forms.map .ofForm) =
      (engine depth).serve s (forms.map .ofForm) := by
  induction forms generalizing s with
  | nil => rfl
  | cons form rest ih =>
    obtain ⟨hform, hrest⟩ := List.forall_mem_cons.1 hforms
    have hengine := standard_onStore depth
    have hread : (Request.ofForm form : Request (Handle Module)).Read :=
      Request.read_of_forms hforms _ (List.mem_cons_self ..)
    rw [List.map_cons, Engine.serve_cons, Engine.serve_cons,
      perform_form_eq haccepts depth hwords hs hform,
      ih (Engine.perform_worded hengine hwords hs hread) (hengine.atomic.keeps s _ hs) hrest]

end IR
end ScalarLang
