import ScalarLang.IR.Evaluate
import ScalarLang.Proofs.Engine.Meaning
import ScalarLang.Proofs.IR.Comparison
import ScalarLang.Proofs.IR.Lowering

/-!
# Instructions compute what expressions mean

The instructions that an expression is lowered to leave its value in the operand that lowering
returns. They bind fresh names only, so what was bound before keeps its value: the parameters, and
the operands that earlier parts of the expression were lowered to.
-/
namespace ScalarLang.IR

/-! ### Registers -/

namespace Registers

/-- The names in `used` have the same values before and after. -/
def Keep (used : List String) (before after : Registers) : Prop :=
  ∀ name ∈ used, after.get? name = before.get? name

/-- Parameters hold what they stand for. -/
def Hold (registers : Registers) (params : List String) (env : String → Option Float) : Prop :=
  ∀ name ∈ params, ∀ x, env name = some x → registers.get? name = some (.double x)

variable {used : List String} {before after : Registers}

theorem Hold.keep {params : List String} {env : String → Option Float} (h : before.Hold params env)
    (hused : ∀ name ∈ params, name ∈ used) (hk : Keep used before after) :
    after.Hold params env := by
  intro name hname x hx
  rw [hk name (hused name hname)]
  exact h name hname x hx

theorem hold_zip {params : List String} (hdistinct : params.Nodup) (args : List Float) :
    Hold (params.zip (args.map .double)) params (binding params args) := by
  intro name hname x hx
  induction params generalizing args with
  | nil => cases hname
  | cons param rest ih =>
    obtain ⟨hnew, hrest⟩ := List.nodup_cons.1 hdistinct
    cases args with
    | nil => simp [binding] at hx
    | cons y ys =>
      rw [List.map_cons, List.zip_cons_cons, Ledger.get?_cons]
      by_cases hmem : name ∈ rest
      · have hne : name ≠ param := fun heq => hnew (heq ▸ hmem)
        obtain ⟨index, hindex⟩ := exists_lastIndex? hmem
        have htail : binding rest ys name = some x := by
          simpa [binding, lastIndex?, hindex] using hx
        rw [if_neg (by simpa using hne)]
        exact ih hrest ys hmem htail
      · obtain rfl : name = param := (List.mem_cons.1 hname).resolve_right hmem
        have hnone := Code.lastIndex?_eq_none.2 hmem
        have hhead : y = x := by
          simpa [binding, lastIndex?, hnone] using hx
        rw [if_pos (by simp), hhead]

end Registers

/-- What is read depends on the names in `used` alone. -/
def Stable {α : Type} (used : List String) (read : Registers → Option α) : Prop :=
  ∀ before after, Registers.Keep used before after → read after = read before

theorem Stable.mono {α : Type} {used larger : List String} {read : Registers → Option α}
    (h : Stable used read) (hsubset : used ⊆ larger) : Stable larger read :=
  fun before after hk => h before after fun name hname => hk name (hsubset hname)

theorem stable_constant (used : List String) (value : Float) :
    Stable used (Operand.constant value).eval := fun _ _ _ => rfl

theorem stable_register {used : List String} {name : String} (h : name ∈ used) :
    Stable used (Operand.register name).eval := by
  intro before after hk
  have hsame := hk name h
  simp only [Operand.eval, hsame]

theorem eval_register {name : String} {registers : Registers} {x : Float}
    (h : registers.get? name = some (.double x)) :
    (Operand.register name).eval registers = some x := by
  simp only [Operand.eval, h]

/-! ### Runs of instructions -/

variable {call : String → List Float → Option Float}

theorem runAll_append (first second : List Instruction) (registers : Registers) :
    Block.runAll call (first ++ second) registers =
      (Block.runAll call first registers >>= Block.runAll call second) := by
  induction first generalizing registers with
  | nil => rfl
  | cons i rest ih =>
    simp only [List.cons_append, Block.runAll, ih, bind_assoc]

/-- Instructions run to an end and leave the names in `used` alone. -/
structure Runs (call : String → List Float → Option Float) (used : List String)
    (instructions : List Instruction) (registers final : Registers) : Prop where
  ends : Block.runAll call instructions registers = some final
  keep : registers.Keep used final

namespace Runs

variable {used : List String} {registers middle final : Registers}

theorem nil : Runs call used [] registers registers := ⟨rfl, fun _ _ => rfl⟩

theorem append {later : List String} {first second : List Instruction}
    (h : Runs call used first registers middle) (hsubset : used ⊆ later)
    (h' : Runs call later second middle final) :
    Runs call used (first ++ second) registers final where
  ends := by
    rw [runAll_append, h.ends]
    exact h'.ends
  keep name hname := (h'.keep name (hsubset hname)).trans (h.keep name hname)

theorem single {i : Instruction} {value : Value} (hfresh : i.result ∉ used)
    (h : i.eval call registers = some value) :
    Runs call used [i] registers ((i.result, value) :: registers) where
  ends := by
    simp only [Block.runAll, h]
    rfl
  keep name hname := by
    have hne : name ≠ i.result := fun heq => hfresh (heq ▸ hname)
    rw [Ledger.get?_cons, if_neg (by simpa using hne)]

end Runs

/-! ### What lowering adds -/

/-- The builder was extended by instructions that call `callees`. -/
structure Emitted (callees : List String) (before after : Builder) (new : List Instruction) :
    Prop where
  instructions : after.instructions = before.instructions ++ new
  used : before.names.used ⊆ after.names.used
  calls : ∀ name, name ∈ new.filterMap Instruction.callee? ↔ name ∈ callees

namespace Emitted

variable {b middle after : Builder}

theorem nil : Emitted [] b b [] where
  instructions := (List.append_nil _).symm
  used := List.Subset.refl _
  calls := by simp

theorem append {callees others : List String} {first second : List Instruction}
    (h : Emitted callees b middle first) (h' : Emitted others middle after second) :
    Emitted (callees ++ others) b after (first ++ second) where
  instructions := by rw [h'.instructions, h.instructions, List.append_assoc]
  used := fun _ hname => h'.used (h.used hname)
  calls name := by
    rw [List.filterMap_append, List.mem_append, List.mem_append, h.calls, h'.calls]

theorem single (b : Builder) (base : String) (instruction : String → Instruction) :
    Emitted (instruction (b.names.pick base).1).callee?.toList b (b.emit base instruction)
      [instruction (b.names.pick base).1] where
  instructions := rfl
  used := by
    simp only [Builder.emit, Names.used_pick]
    exact List.subset_cons_self ..
  calls name := by
    cases hcallee : (instruction (b.names.pick base).1).callee? with
    | none => simp [hcallee]
    | some callee => simp [hcallee]

end Emitted

theorem Emitted.congr {callees others : List String} {b after : Builder} {new : List Instruction}
    (h : Emitted callees b after new) (hsame : ∀ name, name ∈ callees ↔ name ∈ others) :
    Emitted others b after new :=
  ⟨h.instructions, h.used, fun name => (h.calls name).trans (hsame name)⟩

theorem stable_emit (b : Builder) (base : String) (instruction : String → Instruction) :
    Stable (b.emit base instruction).names.used (Operand.register (b.names.pick base).1).eval := by
  refine stable_register ?_
  simp only [Builder.emit, Names.used_pick]
  exact List.mem_cons_self ..

theorem get?_result {i : Instruction} {value : Value} {registers : Registers} {name : String}
    (h : i.result = name) : Ledger.get? ((i.result, value) :: registers) name = some value := by
  rw [Ledger.get?_cons, if_pos (by simp [h])]

/-- An operation is computed under fresh names from the values of its operands. -/
theorem emitOperation_runs {lhs rhs operand : Operand} {operation : Operation}
    {b after : Builder} (h : emitOperation lhs rhs operation b = .ok (operand, after)) :
    ∃ new, Emitted [] b after new ∧ Stable after.names.used operand.eval ∧
      ∀ call registers x y, lhs.eval registers = some x → rhs.eval registers = some y →
        ∃ final, Runs call b.names.used new registers final ∧
          operand.eval final = some (operation.apply x y) := by
  cases operation with
  | arithmetic op =>
    rw [emitOperation_arithmetic] at h
    obtain ⟨rfl, rfl⟩ := Prod.mk.inj (Except.ok.inj h)
    let instruction := fun name => Instruction.arithmetic name op lhs rhs
    refine ⟨_, Emitted.single b (arithmeticBase op) instruction, stable_emit b _ instruction, ?_⟩
    intro call registers x y hx hy
    have hvalue : (instruction (b.names.pick (arithmeticBase op)).1).eval call registers =
        some (.double (op.apply x y)) := by
      simp only [instruction, Instruction.eval, hx, hy]
      rfl
    exact ⟨_, Runs.single (Names.pick_not_mem b.names _) hvalue, eval_register (get?_result rfl)⟩
  | less =>
    rw [emitOperation_less] at h
    obtain ⟨rfl, rfl⟩ := Prod.mk.inj (Except.ok.inj h)
    let comparison := fun name => Instruction.compare name lhs rhs
    let compared := b.emit "cmptmp" comparison
    let widening := fun name => Instruction.widen name (b.names.pick "cmptmp").1
    have hcompared := Emitted.single b "cmptmp" comparison
    have hwidened := Emitted.single compared "booltmp" widening
    refine ⟨_, hcompared.append hwidened, stable_emit compared _ widening, ?_⟩
    intro call registers x y hx hy
    have hbit : (comparison (b.names.pick "cmptmp").1).eval call registers =
        some (.bit (lessOrUnordered x y)) := by
      simp only [comparison, Instruction.eval, hx, hy]
      rfl
    have hfirst := Runs.single (Names.pick_not_mem b.names "cmptmp") hbit
    have hvalue : (widening (compared.names.pick "booltmp").1).eval call
        (((b.names.pick "cmptmp").1, .bit (lessOrUnordered x y)) :: registers) =
        some (.double (truth (lessOrUnordered x y))) := by
      simp [widening, Instruction.eval, Ledger.get?_cons]
    have hsecond := Runs.single (Names.pick_not_mem compared.names "booltmp") hvalue
    refine ⟨_, hfirst.append hcompared.used hsecond, ?_⟩
    rw [← truth_lessOrUnordered]
    exact eval_register (get?_result rfl)

/-! ### Expressions -/

/-- What something means, given what calls yield and what variables hold. -/
abbrev Meaning (α : Type) :=
  (String → List Float → Option Float) → (String → Option Float) → Option α

/-- What was added to a builder computes something: where the parameters hold what they stand for,
it runs and leaves the result to be read. -/
def Computes {α : Type} (params callees : List String) (b after : Builder)
    (meaning : Meaning α) (read : Registers → Option α) : Prop :=
  ∃ new, Emitted callees b after new ∧ Stable after.names.used read ∧
    ∀ call env registers a, Registers.Hold registers params env → meaning call env = some a →
      ∃ final, Runs call b.names.used new registers final ∧ read final = some a

namespace Computes

variable {α γ : Type} {params callees others : List String} {b middle after : Builder}
  {meaning : Meaning α} {read : Registers → Option α}

theorem unchanged (h : Stable b.names.used read)
    (hread : ∀ call env registers a, Registers.Hold registers params env →
      meaning call env = some a → read registers = some a) :
    Computes params [] b b meaning read :=
  ⟨[], .nil, h, fun call env registers a hold ha =>
    ⟨registers, .nil, hread call env registers a hold ha⟩⟩

/-- Adds instructions that work on what is there to be read. -/
theorem extend (next : (String → List Float → Option Float) → α → Option γ)
    {later : Registers → Option γ} {new : List Instruction}
    (h : Computes params callees b middle meaning read) (hnew : Emitted others middle after new)
    (hlater : Stable after.names.used later)
    (hrun : ∀ call registers a c, read registers = some a → next call a = some c →
      ∃ final, Runs call middle.names.used new registers final ∧ later final = some c) :
    Computes params (callees ++ others) b after
      (fun call env => meaning call env >>= next call) later := by
  obtain ⟨first, hfirst, _, hmeaning⟩ := h
  refine ⟨first ++ new, hfirst.append hnew, hlater, fun call env registers c hold hc => ?_⟩
  obtain ⟨a, ha, hnext⟩ := Option.bind_eq_some_iff.1 hc
  obtain ⟨between, hbetween, hread⟩ := hmeaning call env registers a hold ha
  obtain ⟨final, hfinal, hresult⟩ := hrun call between a c hread hnext
  exact ⟨final, hbetween.append hfirst.used hfinal, hresult⟩

/-- Computes one thing after the other: the first can still be read when the second was computed. -/
theorem pair {meaning' : Meaning γ} {read' : Registers → Option γ}
    (hparams : ∀ param ∈ params, param ∈ b.names.used)
    (h : Computes params callees b middle meaning read)
    (h' : Computes params others middle after meaning' read') :
    Computes params (callees ++ others) b after
      (fun call env => meaning call env >>= fun a => meaning' call env >>= fun c => some (a, c))
      (fun registers => read registers >>= fun a => read' registers >>= fun c => some (a, c)) := by
  obtain ⟨first, hfirst, hstable, hmeaning⟩ := h
  obtain ⟨second, hsecond, hstable', hmeaning'⟩ := h'
  refine ⟨first ++ second, hfirst.append hsecond, fun before final hk => ?_, ?_⟩
  · simp only [hstable.mono hsecond.used before final hk, hstable' before final hk]
  · intro call env registers result hold hresult
    obtain ⟨a, ha, hrest⟩ := Option.bind_eq_some_iff.1 hresult
    obtain ⟨c, hc, hpair⟩ := Option.bind_eq_some_iff.1 hrest
    obtain ⟨between, hbetween, hread⟩ := hmeaning call env registers a hold ha
    have hold' := hold.keep hparams hbetween.keep
    obtain ⟨final, hfinal, hread'⟩ := hmeaning' call env between c hold' hc
    refine ⟨final, hbetween.append hfirst.used hfinal, ?_⟩
    show (read final >>= fun a => read' final >>= fun c => some (a, c)) = some result
    rw [hstable between final hfinal.keep, hread, hread']
    exact hpair

theorem congr {meaning' : Meaning α} (h : Computes params callees b after meaning read)
    (hcallees : ∀ name, name ∈ callees ↔ name ∈ others)
    (hmeaning : ∀ call env a, meaning' call env = some a → meaning call env = some a) :
    Computes params others b after meaning' read := by
  obtain ⟨new, hnew, hstable, hrun⟩ := h
  exact ⟨new, hnew.congr hcallees, hstable, fun call env registers a hold ha =>
    hrun call env registers a hold (hmeaning call env a ha)⟩

theorem of_declare {own symbol : String} {p : Prototype}
    (h : Computes params callees (b.declare own symbol p) after meaning read) :
    Computes params callees b after meaning read := by
  obtain ⟨new, ⟨hinstructions, hused, hcalls⟩, hstable, hrun⟩ := h
  rw [Builder.declare_instructions] at hinstructions
  rw [Builder.declare_names] at hused hrun
  exact ⟨new, ⟨hinstructions, hused, hcalls⟩, hstable, hrun⟩

theorem used_subset (h : Computes params callees b after meaning read) :
    b.names.used ⊆ after.names.used := by
  obtain ⟨new, hnew, _⟩ := h
  exact hnew.used

end Computes

variable {frame : Frame} {depth : Nat} {b middle last after : Builder}

/-- The value of an expression can be read from the operand that it was lowered to. -/
def Delivers (frame : Frame) (e : Expr) (b : Builder) (operand : Operand) (after : Builder) :
    Prop :=
  Computes frame.params e.callees b after (fun call env => e.value call env) operand.eval

theorem delivers_binary {op : String} {lhs rhs : Expr} {location : Option Location}
    {left right operand : Operand} {operation : Operation}
    (hparams : ∀ param ∈ frame.params, param ∈ b.names.used)
    (hleft : Delivers frame lhs b left middle) (hright : Delivers frame rhs middle right last)
    (hop : Operation.ofSymbol? op = some operation)
    (h : emitOperation left right operation last = .ok (operand, after)) :
    Delivers frame (.binary op lhs rhs location) b operand after := by
  obtain ⟨new, hnew, hstable, hrun⟩ := emitOperation_runs h
  have hboth := (hleft.pair hparams hright).extend
    (fun _ xy => some (operation.apply xy.1 xy.2)) hnew hstable ?_
  · refine hboth.congr (by simp [Expr.callees]) fun call env z hz => ?_
    obtain ⟨x, y, own, hx, hy, hown, rfl⟩ := Expr.value_binary_eq_some.1 hz
    cases hop.symm.trans hown
    simp [hx, hy]
  · intro call registers xy z hread hz
    obtain ⟨x, hx, hread⟩ := Option.bind_eq_some_iff.1 hread
    obtain ⟨y, hy, hread⟩ := Option.bind_eq_some_iff.1 hread
    cases hread
    cases hz
    exact hrun call registers x y hx hy

def DeliversAll (frame : Frame) (args : List Expr) (b : Builder) (operands : List Operand)
    (after : Builder) : Prop :=
  Computes frame.params (Expr.calleesAll args) b after (fun call env => Expr.values call env args)
    fun registers => operands.mapM (Operand.eval registers)

theorem deliversAll_cons {e : Expr} {rest : List Expr} {first : Operand} {others : List Operand}
    (hparams : ∀ param ∈ frame.params, param ∈ b.names.used)
    (hfirst : Delivers frame e b first middle)
    (hothers : DeliversAll frame rest middle others after) :
    DeliversAll frame (e :: rest) b (first :: others) after := by
  have hstable : Stable after.names.used
      fun registers => (first :: others).mapM (Operand.eval registers) := by
    obtain ⟨_, _, hstableFirst, _⟩ := hfirst
    obtain ⟨_, hemitted, hstableOthers, _⟩ := hothers
    intro before final hk
    have hone := hstableFirst.mono hemitted.used before final hk
    have hrest := hstableOthers before final hk
    simp only [List.mapM_cons, hone, hrest]
  have hboth := (hfirst.pair hparams hothers).extend
    (fun _ both => some (both.1 :: both.2)) .nil hstable ?_
  · refine hboth.congr (by simp [Expr.calleesAll]) fun call env xs hxs => ?_
    obtain ⟨x, ys, hx, hys, rfl⟩ := List.forall₂_cons_left_iff.1 (Expr.values_eq_some.1 hxs)
    simp [hx, Expr.values_eq_some.2 hys]
  · intro call registers both xs hread hxs
    obtain ⟨x, hx, hread⟩ := Option.bind_eq_some_iff.1 hread
    obtain ⟨ys, hys, hread⟩ := Option.bind_eq_some_iff.1 hread
    cases hread
    cases hxs
    refine ⟨registers, .nil, ?_⟩
    simp [hx, hys]

theorem delivers_call {callee : String} {args : List Expr} {location : Option Location}
    {operands : List Operand} (hargs : DeliversAll frame args b operands middle) :
    Delivers frame (.call callee args location) b (.register (middle.names.pick "calltmp").1)
      (middle.emit "calltmp" fun name => .call name callee operands) := by
  let instruction := fun name => Instruction.call name callee operands
  have hcall := hargs.extend (fun call xs => call callee xs)
    (Emitted.single middle "calltmp" instruction) (stable_emit middle "calltmp" instruction) ?_
  · refine hcall.congr ?_ fun call env z hz => ?_
    · simp [instruction, Instruction.callee?, Expr.callees, or_comm]
    · obtain ⟨xs, hxs, hz⟩ := Expr.value_call_eq_some.1 hz
      simp [hxs, hz]
  · intro call registers xs z hxs hz
    have hvalue : (instruction (middle.names.pick "calltmp").1).eval call registers =
        some (.double z) := by
      simp [instruction, Instruction.eval, hxs, hz]
    exact ⟨_, Runs.single (Names.pick_not_mem middle.names "calltmp") hvalue,
      eval_register (get?_result rfl)⟩

theorem mapM_delivers
    (hexpr : ∀ e b operand after, (∀ param ∈ frame.params, param ∈ b.names.used) →
      lowerExpr frame depth e b = .ok (operand, after) → Delivers frame e b operand after)
    {args : List Expr} {operands : List Operand}
    (hparams : ∀ param ∈ frame.params, param ∈ b.names.used)
    (h : args.mapM (lowerExpr frame depth) b = .ok (operands, after)) :
    DeliversAll frame args b operands after := by
  induction args generalizing b operands with
  | nil =>
    cases h
    exact .unchanged (fun _ _ _ => rfl) fun _ _ _ _ _ hxs => hxs
  | cons e rest ih =>
    obtain ⟨first, middle, others, hfirst, hothers, rfl⟩ := mapM_lowerExpr_cons_ok h
    have hone := hexpr e b first middle hparams hfirst
    exact deliversAll_cons hparams hone
      (ih (fun param hparam => hone.used_subset (hparams param hparam)) hothers)

/-- The induction is on the depth budget, of which each part of the expression has one level
less. -/
theorem lowerExpr_delivers {e : Expr} {operand : Operand}
    (hparams : ∀ param ∈ frame.params, param ∈ b.names.used)
    (h : lowerExpr frame depth e b = .ok (operand, after)) : Delivers frame e b operand after := by
  induction depth generalizing e b operand after with
  | zero =>
    rw [lowerExpr_zero] at h
    cases h
  | succ depth ih =>
    cases e with
    | number value location =>
      rw [lowerExpr_number] at h
      cases h
      exact .unchanged (stable_constant _ value) fun _ _ _ _ _ hx => hx
    | var name location =>
      obtain ⟨hname, rfl, rfl⟩ := lowerExpr_var_ok h
      have hstable := stable_register (hparams name hname)
      refine .unchanged hstable fun call env registers x hold hx => ?_
      exact eval_register (hold name hname x hx)
    | binary op lhs rhs location =>
      obtain ⟨left, middle, right, last, operation, hl, hr, hop, hemit⟩ := lowerExpr_binary_ok h
      have hleft := ih hparams hl
      have hright := ih (fun param hparam => hleft.used_subset (hparams param hparam)) hr
      exact delivers_binary hparams hleft hright hop hemit
    | call callee args location =>
      obtain ⟨p, operands, middle, _, hargs, rfl, rfl⟩ := lowerExpr_call_ok h
      have hdeclared : ∀ param ∈ frame.params,
          param ∈ (b.declare frame.symbol callee p).names.used := by
        intro param hparam
        rw [Builder.declare_names]
        exact hparams param hparam
      have hall := mapM_delivers (fun _ _ _ _ hparams h => ih hparams h) hdeclared hargs
      exact delivers_call hall.of_declare

end ScalarLang.IR
