import ScalarLang.Proofs.IR.Linking

/-!
# Generated modules are well formed

The module of a function holds the procedure itself and a declaration of each other procedure that
is called. In the procedure no name is given twice, and every operand is a constant, a parameter or
an earlier result of the right kind. This is an invariant of the builder: every instruction that is
added gets a fresh name and works on what is known by then.
-/
namespace ScalarLang.IR

/-! ### Code in which names are given before they are used -/

/-- The result is a truth value and not a double. -/
def Instruction.isCompare : Instruction → Bool
  | compare _ _ _ => true
  | _ => false

/-- The doubles among the results of instructions. -/
def doublesOf (instructions : List Instruction) : List String :=
  (instructions.filter fun i => !i.isCompare).map Instruction.result

/-- The truth values among the results of instructions. -/
def bitsOf (instructions : List Instruction) : List String :=
  (instructions.filter Instruction.isCompare).map Instruction.result

/-- The operand is a constant or one of the names. -/
def Operand.Known (names : List String) : Operand → Prop
  | .constant _ => True
  | .register name => name ∈ names

/-- The instruction works on the names of doubles and of truth values only. -/
def Instruction.Uses (doubles bits : List String) : Instruction → Prop
  | arithmetic _ _ lhs rhs => lhs.Known doubles ∧ rhs.Known doubles
  | compare _ lhs rhs => lhs.Known doubles ∧ rhs.Known doubles
  | widen _ bit => bit ∈ bits
  | call _ _ args => ∀ arg ∈ args, arg.Known doubles

/-- Every instruction works on parameters and on results of earlier instructions. -/
def Ordered (params : List String) (instructions : List Instruction) : Prop :=
  ∀ before i after, instructions = before ++ i :: after →
    i.Uses (params ++ doublesOf before) (bitsOf before)

/-- A procedure with its parameters and its block, and the other procedures of its module. -/
structure WellFormed (own : String) (params : List String) (block : Block)
    (others : List Procedure) : Prop where
  distinct : (params ++ block.label :: block.instructions.map Instruction.result).Nodup
  ordered : Ordered params block.instructions
  result : block.result.Known (params ++ doublesOf block.instructions)
  declared : ∀ p ∈ others, p.body = none ∧ p.symbol ≠ own
  once : (others.map Procedure.symbol).Nodup
  answered : ∀ result callee args, .call result callee args ∈ block.instructions →
    (callee = own ∧ params.length = args.length) ∨
      ∃ p ∈ others, p.symbol = callee ∧ p.params.length = args.length
  needed : ∀ p ∈ others, p.symbol ∈ block.instructions.filterMap Instruction.callee?

theorem Operand.Known.mono {names more : List String} {operand : Operand}
    (h : operand.Known names) (hsubset : names ⊆ more) : operand.Known more := by
  cases operand with
  | constant value => trivial
  | register name => exact hsubset h

theorem doublesOf_append (first second : List Instruction) :
    doublesOf (first ++ second) = doublesOf first ++ doublesOf second := by
  rw [doublesOf, List.filter_append, List.map_append, doublesOf, doublesOf]

theorem ordered_nil (params : List String) : Ordered params [] := by
  intro before i after h
  cases before with
  | nil => cases h
  | cons => cases h

theorem Ordered.snoc {params : List String} {instructions : List Instruction} {i : Instruction}
    (h : Ordered params instructions)
    (hi : i.Uses (params ++ doublesOf instructions) (bitsOf instructions)) :
    Ordered params (instructions ++ [i]) := by
  intro before j after heq
  rcases List.eq_nil_or_concat after with rfl | ⟨rest, last, rfl⟩
  · obtain ⟨rfl, hlast⟩ := List.append_inj' heq rfl
    cases hlast
    exact hi
  · have hsplit : instructions ++ [i] = (before ++ j :: rest) ++ [last] := by
      rw [heq]
      simp
    exact h before j rest (List.append_inj' hsplit rfl).1

/-! ### The builder -/

variable {frame : Frame} {depth : Nat} {b after : Builder} {label : String}

/-- The names of doubles that are known to a builder. -/
def Builder.known (frame : Frame) (b : Builder) : List String :=
  frame.params ++ doublesOf b.instructions

/-- What a builder keeps while it lowers a body: the names that are given are distinct, plain and in
use, instructions work on what is known, calls pass as many arguments as the signatures ask for, and
callees are declared as the signatures say. -/
structure Builder.Sound (frame : Frame) (label : String) (b : Builder) : Prop where
  distinct : (frame.params ++ label :: b.instructions.map Instruction.result).Nodup
  plain : ∀ name ∈ frame.params ++ label :: b.instructions.map Instruction.result, IsPlain name
  used : ∀ name ∈ frame.params ++ label :: b.instructions.map Instruction.result,
    name ∈ b.names.used
  ordered : Ordered frame.params b.instructions
  calls : ∀ result callee args, .call result callee args ∈ b.instructions →
    ∃ p, frame.signatures.get? callee = some p ∧ p.arity = args.length
  declared : ∀ q ∈ b.declared, ∃ p, frame.signatures.get? q.symbol = some p ∧
    q = declaration q.symbol p

namespace Builder.Sound

/-- The builder that a body is lowered with has named the parameters and the block. -/
theorem start {names : Names} (hdistinct : frame.params.Nodup)
    (hwords : ∀ param ∈ frame.params, IsWord param)
    (hused : ∀ param ∈ frame.params, param ∈ names.used) :
    Builder.Sound frame (names.pick "entry").1 ⟨(names.pick "entry").2, [], []⟩ := by
  refine ⟨?_, fun name hname => ?_, fun name hname => ?_, ordered_nil _, by simp, by simp⟩
  · rw [List.map_nil, ← List.concat_eq_append]
    exact hdistinct.concat fun hmem => Names.pick_not_mem names "entry" (hused _ hmem)
  · rcases List.mem_append.1 hname with hname | hname
    · exact isPlain_of_isWord (hwords name hname)
    · obtain rfl := List.mem_singleton.1 hname
      exact isPlain_pick names (by simp [IsWord])
  · rw [Names.used_pick]
    rcases List.mem_append.1 hname with hname | hname
    · exact List.mem_cons_of_mem _ (hused name hname)
    · exact List.mem_singleton.1 hname ▸ List.mem_cons_self ..

theorem declare (h : b.Sound frame label) {symbol : String} {p : Prototype}
    (hp : frame.signatures.get? symbol = some p) :
    (b.declare frame.symbol symbol p).Sound frame label := by
  unfold Builder.declare
  split
  · exact h
  · refine ⟨h.distinct, h.plain, h.used, h.ordered, h.calls, fun q hq => ?_⟩
    rcases List.mem_append.1 hq with hq | hq
    · exact h.declared q hq
    · obtain rfl := List.mem_singleton.1 hq
      exact ⟨p, hp, rfl⟩

/-- One more instruction keeps a builder sound if it works on what is known, and passes as many
arguments as the signatures ask for if it is a call. -/
theorem emit (h : b.Sound frame label) {base : String} (hbase : IsWord base)
    (instruction : String → Instruction) (hresult : ∀ name, (instruction name).result = name)
    (huses : ∀ name, (instruction name).Uses (b.known frame) (bitsOf b.instructions))
    (hcall : ∀ name result callee args, instruction name = .call result callee args →
      ∃ p, frame.signatures.get? callee = some p ∧ p.arity = args.length) :
    (b.emit base instruction).Sound frame label := by
  let name := (b.names.pick base).1
  have hgiven : frame.params ++ label :: (b.instructions ++ [instruction name]).map
      Instruction.result =
      (frame.params ++ label :: b.instructions.map Instruction.result) ++ [name] := by
    simp [hresult]
  have hfresh : name ∉ frame.params ++ label :: b.instructions.map Instruction.result :=
    fun hmem => Names.pick_not_mem b.names base (h.used name hmem)
  refine ⟨?_, fun own hown => ?_, fun own hown => ?_, h.ordered.snoc (huses name),
    fun result callee args hmem => ?_, h.declared⟩
  · simp only [Builder.emit]
    rw [hgiven, ← List.concat_eq_append]
    exact h.distinct.concat hfresh
  · simp only [Builder.emit] at hown
    rw [hgiven] at hown
    rcases List.mem_append.1 hown with hold | hnew
    · exact h.plain own hold
    · obtain rfl := List.mem_singleton.1 hnew
      exact isPlain_pick b.names hbase
  · simp only [Builder.emit, Names.used_pick] at hown ⊢
    rw [hgiven] at hown
    rcases List.mem_append.1 hown with hold | hnew
    · exact List.mem_cons_of_mem _ (h.used own hold)
    · exact List.mem_singleton.1 hnew ▸ List.mem_cons_self ..
  · rcases List.mem_append.1 hmem with hold | hnew
    · exact h.calls result callee args hold
    · exact hcall name result callee args (List.mem_singleton.1 hnew).symm

end Builder.Sound

/-- What lowering a part of a body leads to: the builder is sound, it has kept its instructions, and
the operands are known. -/
structure Extends (frame : Frame) (label : String) (b after : Builder) (operands : List Operand) :
    Prop where
  sound : after.Sound frame label
  prior : b.instructions <+: after.instructions
  operands : ∀ operand ∈ operands, operand.Known (after.known frame)

theorem Operand.Known.later {operand : Operand} (h : operand.Known (b.known frame))
    (hprior : b.instructions <+: after.instructions) : operand.Known (after.known frame) := by
  obtain ⟨new, hnew⟩ := hprior
  refine h.mono ?_
  rw [Builder.known, Builder.known, ← hnew, doublesOf_append, ← List.append_assoc]
  exact List.subset_append_left _ _

/-- An instruction whose result is a double makes it known. -/
theorem Builder.Sound.extend (h : b.Sound frame label) {base : String} (hbase : IsWord base)
    (instruction : String → Instruction) (hresult : ∀ name, (instruction name).result = name)
    (hdouble : ∀ name, (instruction name).isCompare = false)
    (huses : ∀ name, (instruction name).Uses (b.known frame) (bitsOf b.instructions))
    (hcall : ∀ name result callee args, instruction name = .call result callee args →
      ∃ p, frame.signatures.get? callee = some p ∧ p.arity = args.length) :
    Extends frame label b (b.emit base instruction) [.register (b.names.pick base).1] where
  sound := h.emit hbase instruction hresult huses hcall
  prior := List.prefix_append _ _
  operands operand hmem := by
    obtain rfl := List.mem_singleton.1 hmem
    simp [Operand.Known, Builder.known, Builder.emit, doublesOf, hdouble, hresult]

theorem emitOperation_extends (h : b.Sound frame label) {lhs rhs operand : Operand}
    {operation : Operation} (hlhs : lhs.Known (b.known frame)) (hrhs : rhs.Known (b.known frame))
    (hemit : emitOperation lhs rhs operation b = .ok (operand, after)) :
    Extends frame label b after [operand] := by
  cases operation with
  | arithmetic op =>
    rw [emitOperation_arithmetic] at hemit
    cases hemit
    have hbase : IsWord (arithmeticBase op) := by cases op <;> simp [arithmeticBase, IsWord]
    exact h.extend hbase _ (fun _ => rfl) (fun _ => rfl) (fun _ => ⟨hlhs, hrhs⟩)
      fun _ _ _ _ h => by cases h
  | less =>
    rw [emitOperation_less] at hemit
    cases hemit
    have hcmp : IsWord "cmptmp" := by simp [IsWord]
    have hbool : IsWord "booltmp" := by simp [IsWord]
    have hcompared := h.emit hcmp (fun name => .compare name lhs rhs) (fun _ => rfl)
      (fun _ => ⟨hlhs, hrhs⟩) (fun _ _ _ _ h => by cases h)
    have hwidened := hcompared.extend hbool
      (fun name => .widen name (b.names.pick "cmptmp").1) (fun _ => rfl) (fun _ => rfl)
      (fun _ => by simp [Instruction.Uses, Builder.emit, bitsOf, Instruction.isCompare,
        Instruction.result]) (fun _ _ _ _ h => by cases h)
    exact ⟨hwidened.sound, (List.prefix_append _ _).trans hwidened.prior, hwidened.operands⟩

theorem mapM_extends
    (hexpr : ∀ e b operand after, b.Sound frame label →
      lowerExpr frame depth e b = .ok (operand, after) → Extends frame label b after [operand])
    {args : List Expr} {operands : List Operand} (hb : b.Sound frame label)
    (h : args.mapM (lowerExpr frame depth) b = .ok (operands, after)) :
    Extends frame label b after operands ∧ operands.length = args.length := by
  induction args generalizing b operands with
  | nil =>
    cases h
    exact ⟨⟨hb, List.prefix_rfl, by simp⟩, rfl⟩
  | cons e rest ih =>
    obtain ⟨first, middle, others, hfirst, hothers, rfl⟩ := mapM_lowerExpr_cons_ok h
    have hone := hexpr e b first middle hb hfirst
    obtain ⟨hrest, hlength⟩ := ih hone.sound hothers
    refine ⟨⟨hrest.sound, hone.prior.trans hrest.prior, fun operand hmem => ?_⟩, ?_⟩
    · rcases List.mem_cons.1 hmem with rfl | hmem
      · exact (hone.operands _ (List.mem_singleton_self _)).later hrest.prior
      · exact hrest.operands operand hmem
    · rw [List.length_cons, List.length_cons, hlength]

/-- The induction is on the depth budget, of which each part of the expression has one level
less. -/
theorem lowerExpr_extends {e : Expr} {operand : Operand} (hb : b.Sound frame label)
    (h : lowerExpr frame depth e b = .ok (operand, after)) :
    Extends frame label b after [operand] := by
  induction depth generalizing e b operand after with
  | zero =>
    rw [lowerExpr_zero] at h
    cases h
  | succ depth ih =>
    cases e with
    | number value location =>
      rw [lowerExpr_number] at h
      cases h
      exact ⟨hb, List.prefix_rfl, by simp [Operand.Known]⟩
    | var name location =>
      obtain ⟨hmem, rfl, rfl⟩ := lowerExpr_var_ok h
      refine ⟨hb, List.prefix_rfl, fun operand hoperand => ?_⟩
      obtain rfl := List.mem_singleton.1 hoperand
      exact List.mem_append_left _ hmem
    | binary op lhs rhs location =>
      obtain ⟨left, middle, right, last, operation, hl, hr, _, hemit⟩ := lowerExpr_binary_ok h
      have hleft := ih hb hl
      have hright := ih hleft.sound hr
      have hlhs := (hleft.operands _ (List.mem_singleton_self _)).later hright.prior
      have hrhs := hright.operands _ (List.mem_singleton_self _)
      have hlast := emitOperation_extends hright.sound hlhs hrhs hemit
      exact ⟨hlast.sound, hleft.prior.trans (hright.prior.trans hlast.prior), hlast.operands⟩
    | call callee args location =>
      obtain ⟨p, operands, middle, hp, hargs, rfl, rfl⟩ := lowerExpr_call_ok h
      obtain ⟨hget, harity⟩ := Signatures.resolve_eq_ok hp
      obtain ⟨hmiddle, hlength⟩ :=
        mapM_extends (fun _ _ _ _ hb h => ih hb h) (hb.declare hget) hargs
      have hbase : IsWord "calltmp" := by simp [IsWord]
      have hlast := hmiddle.sound.extend hbase
        (fun name => .call name callee operands) (fun _ => rfl) (fun _ => rfl)
        (fun _ => hmiddle.operands) fun name result own passed heq => by
          cases heq
          exact ⟨p, hget, harity.trans hlength.symm⟩
      have hprior := hmiddle.prior
      rw [Builder.declare_instructions] at hprior
      exact ⟨hlast.sound, hprior.trans hlast.prior, hlast.operands⟩

/-! ### Functions -/

theorem Names.length_pickAll (names : Names) (bases : List String) :
    (names.pickAll bases).1.length = bases.length := by
  induction bases generalizing names with
  | nil => rfl
  | cons base rest ih => simp only [pickAll, List.length_cons, ih]

theorem length_declaration (symbol : String) (p : Prototype) :
    (declaration symbol p).params.length = p.arity := Names.length_pickAll _ p.params

/-- Only words have signatures, and these are as they can be read. -/
def Worded (signatures : Signatures) : Prop :=
  ∀ name p, signatures.get? name = some p → IsWord name ∧ p.Regular

theorem worded_empty : Worded (({} : Store Module).signatures) := by
  intro name p hp
  cases hp

theorem symbolOf_of_anonymous {p : Prototype} (h : p.isAnonymous = true) :
    symbolOf p = anonymousSymbol := if_pos h

/-- A callee that has the symbol of the function is the function, since no word is the symbol of a
bare expression. -/
theorem arity_of_own {signatures : Signatures} {f : Function} {p : Prototype}
    (hwords : Worded signatures) (hown : f.prototype.isAnonymous = false →
      signatures.get? f.prototype.name = some f.prototype)
    (hp : signatures.get? (symbolOf f.prototype) = some p) : p.arity = f.prototype.arity := by
  cases ha : f.prototype.isAnonymous with
  | true =>
    rw [symbolOf_of_anonymous ha] at hp
    exact absurd (hwords _ _ hp).1 not_isWord_anonymousSymbol
  | false =>
    have hsymbol : symbolOf f.prototype = f.prototype.name := by simp [symbolOf, ha]
    rw [hsymbol, hown ha] at hp
    cases hp
    rfl

/-- The module of a function as the builder leaves it. -/
theorem built_of_lower {signatures : Signatures} {f : Function} {m : Module}
    (hf : f.prototype.Regular) (h : lower depth signatures f = .ok m) :
    let frame : Frame :=
      ⟨signatures, symbolOf f.prototype, f.prototype.params, f.prototype.location⟩
    ∃ (label : String) (b : Builder) (result : Operand),
      m = ⟨symbolOf f.prototype, ⟨symbolOf f.prototype, f.prototype.params,
        some ⟨label, b.instructions, result⟩⟩ :: b.declared⟩ ∧
      b.Sound frame label ∧ result.Known (b.known frame) ∧
      Declares (symbolOf f.prototype) f.body.callees [] b.declared ∧
      ∀ name, name ∈ b.instructions.filterMap Instruction.callee? ↔ name ∈ f.body.callees := by
  intro frame
  obtain ⟨names, hnames, hused⟩ := paramNames_eq hf.distinct hf.params
  simp only [lower, hnames, StateT.run] at h
  obtain ⟨⟨result, b⟩, hbody, h⟩ := bind_eq_ok.1 h
  cases h
  have hextends := lowerExpr_extends (Builder.Sound.start hf.distinct hf.params hused) hbody
  have hparams : ∀ param ∈ f.prototype.params, param ∈ (names.pick "entry").2.used := by
    intro param hparam
    rw [Names.used_pick]
    exact List.mem_cons_of_mem _ (hused param hparam)
  obtain ⟨new, hnew, _⟩ := lowerExpr_delivers hparams hbody
  refine ⟨_, b, result, rfl, hextends.sound,
    hextends.operands _ (List.mem_singleton_self _), lowerExpr_declares hbody, ?_⟩
  rw [hnew.instructions]
  exact hnew.calls

theorem wellFormed_of_lower {signatures : Signatures} {f : Function} {m : Module}
    (hf : f.prototype.Regular) (hwords : Worded signatures)
    (hown : f.prototype.isAnonymous = false →
      signatures.get? f.prototype.name = some f.prototype)
    (h : lower depth signatures f = .ok m) :
    ∃ block others, m = ⟨symbolOf f.prototype,
        ⟨symbolOf f.prototype, f.prototype.params, some block⟩ :: others⟩ ∧
      WellFormed (symbolOf f.prototype) f.prototype.params block others := by
  obtain ⟨label, b, result, rfl, hsound, hresult, hdeclares, hcalls⟩ := built_of_lower hf h
  refine ⟨_, _, rfl, hsound.distinct, hsound.ordered, hresult, fun q hq => ?_,
    hdeclares.distinct List.nodup_nil, fun own callee args hmem => ?_, fun q hq => ?_⟩
  · rcases hdeclares.new q hq with hnone | ⟨hbody, hother, _⟩
    · cases hnone
    · exact ⟨hbody, hother⟩
  · obtain ⟨p, hp, harity⟩ := hsound.calls own callee args hmem
    have hcalled : callee ∈ f.body.callees :=
      (hcalls callee).1 (List.mem_filterMap.2 ⟨_, hmem, rfl⟩)
    rcases hdeclares.covered callee hcalled with rfl | hdeclared
    · exact Or.inl ⟨rfl, (arity_of_own hwords hown hp).symm.trans harity⟩
    · obtain ⟨q, hq, rfl⟩ := List.mem_map.1 hdeclared
      obtain ⟨p', hp', hq'⟩ := hsound.declared q hq
      rw [hp] at hp'
      cases hp'
      refine Or.inr ⟨q, hq, rfl, ?_⟩
      rw [hq', length_declaration, harity]
  · rcases hdeclares.new q hq with hnone | ⟨_, _, hcalled⟩
    · cases hnone
    · exact (hcalls _).2 hcalled

end ScalarLang.IR

namespace ScalarLang

/-! ### Stores -/

theorem Prototype.Regular.isWord {p : Prototype} (h : p.Regular) (ha : p.isAnonymous = false) :
    IsWord p.name := by
  rcases h.name with hword | ⟨hempty, _⟩
  · exact hword
  · have hanon := (Store.isAnonymous_iff p).2 hempty
    rw [ha] at hanon
    cases hanon

namespace Store

variable {β : Type} {s : Store β}

theorem worded_record (h : IR.Worded s.signatures) {p : Prototype} (hp : p.Regular) :
    IR.Worded (s.record p).signatures := by
  intro name q hq
  rcases get?_record_cases hq with ⟨ha, rfl, rfl⟩ | hold
  · exact ⟨hp.isWord ha, hp⟩
  · exact h name q hold

end Store

/-- What is declared or defined has been read; anything can be executed. -/
def Request.Read {η : Type} : Request η → Prop
  | .declare p => (Form.external p).Read
  | .define f => (Form.function f).Read
  | .execute _ => True

theorem Request.read_of_forms {η : Type} {forms : List Form} (hforms : ∀ form ∈ forms, form.Read) :
    ∀ request ∈ forms.map (Request.ofForm (η := η)), request.Read := by
  intro request hrequest
  obtain ⟨form, hform, rfl⟩ := List.mem_map.1 hrequest
  cases form with
  | function f => exact hforms _ hform
  | external p => exact hforms _ hform

namespace Engine

variable {β : Type} {lower : Signatures → Function → Except Rejection β}
  {engine : Engine (Store β) (Handle β)} {s : Store β}

theorem perform_worded (hengine : engine.OnStore lower) (h : IR.Worded s.signatures)
    (hs : s.Closed) {request : Request (Handle β)} (hread : request.Read) :
    IR.Worded (engine.perform s request).2.signatures := by
  rcases hengine.perform_cases hs request with
    ⟨answer, hr, _⟩ | ⟨p, l, after, rfl, hd, hr⟩ | ⟨f, l, after, rfl, hd, hr⟩
  · rw [hr]
    exact h
  · rw [hr]
    rcases Store.declare_ok hd with ⟨_, _, _, _, rfl⟩ | ⟨_, _, rfl⟩
    · exact h
    · exact Store.worded_record h (Form.Read.regular hread)
  · rw [hr]
    obtain ⟨_, body, _, _, rfl⟩ := Store.define_ok hs hd
    simp only [Store.keep_signatures]
    exact Store.worded_record h (Form.Read.regular hread)

theorem serve_worded (hengine : engine.OnStore lower) (h : IR.Worded s.signatures)
    (hs : s.Closed) {requests : List (Request (Handle β))}
    (hread : ∀ request ∈ requests, request.Read) :
    IR.Worded (engine.serve s requests).2.signatures := by
  induction requests generalizing s with
  | nil => exact h
  | cons request rest ih =>
    obtain ⟨hfirst, hrest⟩ := List.forall_mem_cons.1 hread
    exact ih (perform_worded hengine h hs hfirst) (hengine.atomic.keeps s request hs) hrest

end Engine

/-- After any history of what has been read and of executions, whatever the runtime complained about
in it, a function that is read and accepted is lowered to a module that holds one procedure with a
body, under the name of the function or, for a bare expression, under a symbol that no function can
have. Names are given once and before they are used, callees are the procedure itself or declared
once with as many parameters as each call passes, and nothing else is declared. -/
theorem IR.generated_modules_are_well_formed (runtime : Runtime) (depth : Nat)
    {history : List (Request (Handle Module))} (hhistory : ∀ request ∈ history, request.Read)
    {f : Function} (hf : (Form.function f).Read) {l : Lowered (Handle Module)}
    {after : Store Module}
    (h : (engine depth runtime).define f ((engine depth runtime).serve {} history).2 =
      .ok l after) :
    (∀ form : Form, form.Read → form.prototype.name ≠ anonymousSymbol) ∧
    ∃ m block others, l.handle = .defined ⟨f, m⟩ ∧
      m.name = symbolOf f.prototype ∧
      m.procedures = ⟨symbolOf f.prototype, f.prototype.params, some block⟩ :: others ∧
      WellFormed (symbolOf f.prototype) f.prototype.params block others := by
  refine ⟨fun form hform hname => ?_, ?_⟩
  · rcases hform.regular.name with hword | ⟨hempty, _⟩
    · rw [hname] at hword
      exact not_isWord_anonymousSymbol hword
    · rw [hname] at hempty
      exact absurd hempty (by decide)
  · have hengine := IR.onStore runtime depth
    have hclosed := hengine.atomic.keeps_serve Store.closed_empty history
    have hwords := Engine.serve_worded hengine worded_empty Store.closed_empty hhistory
    obtain ⟨lowered, hdefine, rfl⟩ := step_map_eq_ok h
    obtain ⟨_, m, hm, hhandle, _⟩ := Store.define_ok hclosed hdefine
    obtain ⟨block, others, rfl, hform⟩ := wellFormed_of_lower hf.regular
      (Store.worded_record hwords hf.regular) (fun ha => Store.get?_record_self ha)
      (compile_eq_ok.1 hm).1
    exact ⟨_, block, others, congrArg Handle.defined hhandle, rfl, rfl, hform⟩

namespace IR

/-- The names in a module: for each procedure its symbol, its parameters, and the label and the
results of its block. -/
def Module.outline (m : Module) : List (String × List String × Option (String × List String)) :=
  m.procedures.map fun p => (p.symbol, p.params, p.body.map fun block =>
    (block.label, block.instructions.map Instruction.result))

set_option maxRecDepth 20000 in
theorem clashing_names_outline :
    let source := "extern g(x) def f(entry addtmp calltmp) " ++
      "f(g(addtmp + entry), g(calltmp), f(entry, entry, addtmp + addtmp))"
    (match (Parse.all .standard 9).result (.ofSource "" source.toList) with
      | .ok [form, .function f] =>
        match (engine 9).define f ((engine 9).serve {} ([form].map .ofForm)).2 with
        | .ok ⟨.defined d, _⟩ _ => d.body.outline
        | _ => []
      | _ => []) =
    [("f", ["entry", "addtmp", "calltmp"], some ("entry.1",
        ["addtmp.1", "calltmp.1", "calltmp.2", "addtmp.2", "calltmp.3", "calltmp.4"])),
      ("g", ["x"], none)] := by cbv

/-- A function that calls itself and a declared function, with parameters whose names the block and
the results would like to have. -/
theorem generated_modules_are_well_formed_clashing_names :
    let source := "extern g(x) def f(entry addtmp calltmp) " ++
      "f(g(addtmp + entry), g(calltmp), f(entry, entry, addtmp + addtmp))"
    ∃ form f l after m block others,
      (Parse.all .standard 9).result (.ofSource "" source.toList) = .ok [form, .function f] ∧
      (engine 9).define f ((engine 9).serve {} ([form].map .ofForm)).2 = .ok l after ∧
      l.handle = .defined ⟨f, m⟩ ∧ m.outline = [("f", ["entry", "addtmp", "calltmp"],
        some ("entry.1",
          ["addtmp.1", "calltmp.1", "calltmp.2", "addtmp.2", "calltmp.3", "calltmp.4"])),
        ("g", ["x"], none)] ∧
      m.procedures = ⟨symbolOf f.prototype, f.prototype.params, some block⟩ :: others ∧
      WellFormed (symbolOf f.prototype) f.prototype.params block others := by
  intro source
  have houtline := clashing_names_outline
  dsimp only at houtline
  split at houtline
  · next form f hforms =>
    split at houtline
    · next d log after hdefine =>
      have hread := Parse.read_of_all hforms
      have hfirst : ∀ request ∈ [form].map (Request.ofForm (η := Handle Module)),
          request.Read := by
        intro request hrequest
        obtain rfl := List.mem_singleton.1 hrequest
        have hown := hread form (List.mem_cons_self ..)
        cases form with
        | function g => exact hown
        | external p => exact hown
      obtain ⟨_, m, block, others, hhandle, _, hprocedures, hform⟩ :=
        generated_modules_are_well_formed .standard 9 hfirst (hread (.function f) (by simp)) hdefine
      cases hhandle
      exact ⟨form, f, _, after, m, block, others, hforms, hdefine, rfl, houtline, hprocedures,
        hform⟩
    · cases houtline
  · cases houtline

end IR
end ScalarLang
