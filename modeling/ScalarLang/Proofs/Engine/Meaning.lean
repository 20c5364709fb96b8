import Mathlib.Data.List.Perm.Subperm
import Mathlib.Logic.Relation
import ScalarLang.Proofs.Interpreter.Binding

/-!
# What functions mean

The value of an expression, given what its variables hold and what its calls yield, and from it the
value of a call among functions that call each other by name. It does not depend on an engine; both
engines are compared with it. A call has a value once calls can go deep enough, if every function
that it reaches is there and none of them reaches itself.
-/
namespace ScalarLang

abbrev Functions := Ledger String Function

/-! ### Expressions -/

namespace Expr

mutual

/-- The value of an expression, if it has one: `call` says what calls yield, and `env` what
variables hold. -/
def value (call : String → List Float → Option Float) (env : String → Option Float) :
    Expr → Option Float
  | .number x _ => some x
  | .var name _ => env name
  | .binary op lhs rhs _ => do
    let x ← value call env lhs
    let y ← value call env rhs
    let operation ← Operation.ofSymbol? op
    return operation.apply x y
  | .call callee args _ => do
    let xs ← values call env args
    call callee xs

def values (call : String → List Float → Option Float) (env : String → Option Float) :
    List Expr → Option (List Float)
  | [] => some []
  | e :: rest => do
    let x ← value call env e
    let xs ← values call env rest
    return x :: xs

end

mutual

/-- The names that an expression calls. -/
def callees : Expr → List String
  | .number _ _ => []
  | .var _ _ => []
  | .binary _ lhs rhs _ => callees lhs ++ callees rhs
  | .call callee args _ => callee :: calleesAll args

def calleesAll : List Expr → List String
  | [] => []
  | e :: rest => callees e ++ calleesAll rest

end

/-- An expression that can be lowered: variables are parameters, operators are known, and calls pass
as many arguments as the signature of the callee has parameters. -/
inductive Scoped (signatures : Signatures) (params : List String) : Expr → Prop
  | number (x : Float) (location : Option Location) : Scoped signatures params (.number x location)
  | var {name : String} (location : Option Location) (h : name ∈ params) :
      Scoped signatures params (.var name location)
  | binary {op : String} {operation : Operation} {lhs rhs : Expr} (location : Option Location)
      (hop : Operation.ofSymbol? op = some operation) (hl : Scoped signatures params lhs)
      (hr : Scoped signatures params rhs) : Scoped signatures params (.binary op lhs rhs location)
  | call {callee : String} {args : List Expr} {p : Prototype} (location : Option Location)
      (hp : signatures.get? callee = some p) (ha : p.arity = args.length)
      (hargs : ∀ arg ∈ args, Scoped signatures params arg) :
      Scoped signatures params (.call callee args location)

variable {call other : String → List Float → Option Float} {env : String → Option Float}

theorem mem_calleesAll {args : List Expr} {name : String} :
    name ∈ calleesAll args ↔ ∃ arg ∈ args, name ∈ arg.callees := by
  induction args with
  | nil => simp [calleesAll]
  | cons arg rest ih => simp [calleesAll, ih]

theorem values_eq_some {args : List Expr} {xs : List Float} :
    values call env args = some xs ↔
      List.Forall₂ (fun arg x => arg.value call env = some x) args xs := by
  induction args generalizing xs with
  | nil => simp [values, eq_comm]
  | cons arg rest ih =>
    simp only [values, Option.bind_eq_bind, Option.bind_eq_some_iff, ih, List.forall₂_cons_left_iff]
    constructor
    · rintro ⟨x, hx, others, hothers, h⟩
      exact ⟨x, others, hx, hothers, (Option.some.inj h).symm⟩
    · rintro ⟨x, others, hx, hothers, rfl⟩
      exact ⟨x, hx, others, hothers, rfl⟩

theorem value_binary_eq_some {op : String} {lhs rhs : Expr} {location : Option Location}
    {z : Float} :
    value call env (.binary op lhs rhs location) = some z ↔
      ∃ x y operation, lhs.value call env = some x ∧ rhs.value call env = some y ∧
        Operation.ofSymbol? op = some operation ∧ operation.apply x y = z := by
  simp only [value, Option.bind_eq_bind, Option.bind_eq_some_iff]
  constructor
  · rintro ⟨x, hx, y, hy, operation, hop, h⟩
    exact ⟨x, y, operation, hx, hy, hop, Option.some.inj h⟩
  · rintro ⟨x, y, operation, hx, hy, hop, rfl⟩
    exact ⟨x, hx, y, hy, operation, hop, rfl⟩

theorem value_call_eq_some {callee : String} {args : List Expr} {location : Option Location}
    {z : Float} :
    value call env (.call callee args location) = some z ↔
      ∃ xs, values call env args = some xs ∧ call callee xs = some z := by
  simp only [value, Option.bind_eq_bind, Option.bind_eq_some_iff]

theorem values_total {args : List Expr} (h : ∀ arg ∈ args, ∃ x, arg.value call env = some x) :
    ∃ xs, values call env args = some xs := by
  induction args with
  | nil => exact ⟨[], rfl⟩
  | cons arg rest ih =>
    obtain ⟨x, hx⟩ := h arg (List.mem_cons_self ..)
    obtain ⟨xs, hxs⟩ := ih fun arg harg => h arg (List.mem_cons_of_mem _ harg)
    exact ⟨x :: xs, values_eq_some.2 (.cons hx (values_eq_some.1 hxs))⟩

/-- Calls that yield more give the same value. -/
theorem Scoped.value_mono {signatures : Signatures} {params : List String} {e : Expr} {z : Float}
    (h : e.Scoped signatures params)
    (hcall : ∀ name ∈ e.callees, ∀ xs y, call name xs = some y → other name xs = some y)
    (hz : e.value call env = some z) : e.value other env = some z := by
  induction h generalizing z with
  | number x location => exact hz
  | var location h => exact hz
  | binary location _ _ _ ihl ihr =>
    obtain ⟨x, y, operation, hx, hy, hop, hxy⟩ := value_binary_eq_some.1 hz
    refine value_binary_eq_some.2 ⟨x, y, operation, ihl ?_ hx, ihr ?_ hy, hop, hxy⟩
    · intro name hname
      exact hcall name (List.mem_append_left _ hname)
    · intro name hname
      exact hcall name (List.mem_append_right _ hname)
  | @call callee args p location _ _ _ ih =>
    obtain ⟨xs, hxs, hcallee⟩ := value_call_eq_some.1 hz
    have hall := values_eq_some.1 hxs
    have hyields := hcall callee (List.mem_cons_self ..) xs z hcallee
    refine value_call_eq_some.2 ⟨xs, values_eq_some.2 ?_, hyields⟩
    refine List.forall₂_iff_get.2 ⟨hall.length_eq, fun i hi hj => ?_⟩
    refine ih _ (List.get_mem _ _) ?_ (hall.get hi hj)
    intro name hname
    exact hcall name (List.mem_cons_of_mem _ (mem_calleesAll.2 ⟨_, List.get_mem _ _, hname⟩))

/-- An expression has a value if its variables hold values and its calls yield some. -/
theorem Scoped.value_total {signatures : Signatures} {params : List String} {e : Expr}
    (h : e.Scoped signatures params) (henv : ∀ name ∈ params, ∃ x, env name = some x)
    (hcall : ∀ name ∈ e.callees, ∀ p xs, signatures.get? name = some p → p.arity = xs.length →
      ∃ y, call name xs = some y) : ∃ z, e.value call env = some z := by
  induction h with
  | number x location => exact ⟨x, rfl⟩
  | var location h => exact henv _ h
  | binary location hop _ _ ihl ihr =>
    obtain ⟨x, hx⟩ := ihl fun name hname => hcall name (List.mem_append_left _ hname)
    obtain ⟨y, hy⟩ := ihr fun name hname => hcall name (List.mem_append_right _ hname)
    exact ⟨_, value_binary_eq_some.2 ⟨x, y, _, hx, hy, hop, rfl⟩⟩
  | @call callee args p location hp ha _ ih =>
    have hargs : ∀ arg ∈ args, ∃ x, arg.value call env = some x := by
      intro arg harg
      refine ih arg harg fun name hname => hcall name ?_
      exact List.mem_cons_of_mem _ (mem_calleesAll.2 ⟨arg, harg, hname⟩)
    obtain ⟨xs, hxs⟩ := values_total hargs
    have hlength := (values_eq_some.1 hxs).length_eq
    obtain ⟨y, hy⟩ := hcall callee (List.mem_cons_self ..) p xs hp (ha.trans hlength)
    exact ⟨y, value_call_eq_some.2 ⟨xs, hxs, hy⟩⟩

theorem Scoped.extend {later earlier : Signatures} (he : later.Extends earlier)
    {params : List String} {e : Expr} (h : e.Scoped earlier params) : e.Scoped later params := by
  induction h with
  | number x location => exact .number x location
  | var location h => exact .var location h
  | binary location hop _ _ ihl ihr => exact .binary location hop ihl ihr
  | call location hp ha _ ih =>
    obtain ⟨q, hq, hqa⟩ := he _ _ hp
    exact .call location hq (hqa.trans ha) ih

end Expr

/-! ### Calls -/

/-- What a parameter holds, the last one if it is repeated. -/
def binding (params : List String) (args : List Float) (name : String) : Option Float :=
  (lastIndex? params name).bind fun index => args[index]?

theorem exists_lastIndex? {params : List String} {name : String} (h : name ∈ params) :
    ∃ index, lastIndex? params name = some index := by
  cases hindex : lastIndex? params name with
  | some index => exact ⟨index, rfl⟩
  | none => exact absurd h (Code.lastIndex?_eq_none.1 hindex)

theorem binding_total {params : List String} {args : List Float}
    (hlength : params.length = args.length) :
    ∀ name ∈ params, ∃ x, binding params args name = some x := by
  intro name hname
  obtain ⟨index, hindex⟩ := exists_lastIndex? hname
  have hlt : index < args.length := hlength ▸ Code.lastIndex?_lt hindex
  refine ⟨args.get ⟨index, hlt⟩, ?_⟩
  simp [binding, hindex, hlt]

namespace Functions

variable {functions : Functions} {signatures : Signatures}

/-- The value of a call, with at most `depth` calls inside one another. -/
def call (functions : Functions) : Nat → String → List Float → Option Float
  | 0, _, _ => none
  | depth + 1, name, args =>
    match functions.get? name with
    | some f =>
      if f.prototype.arity = args.length then
        f.body.value (call functions depth) (binding f.prototype.params args)
      else none
    | none => none

theorem call_succ_eq_some {depth : Nat} {name : String} {args : List Float} {z : Float} :
    functions.call (depth + 1) name args = some z ↔
      ∃ f, functions.get? name = some f ∧ f.prototype.arity = args.length ∧
        f.body.value (functions.call depth) (binding f.prototype.params args) = some z := by
  rw [call]
  cases functions.get? name with
  | none => simp
  | some f => simp

/-- The function of one name calls that of the other. -/
def Calls (functions : Functions) (caller callee : String) : Prop :=
  ∃ f, functions.get? caller = some f ∧ callee ∈ f.body.callees

/-- An expression reaches a name through calls. -/
def Reaches (functions : Functions) (e : Expr) (name : String) : Prop :=
  ∃ root ∈ e.callees, Relation.ReflTransGen functions.Calls root name

/-- Every function can be lowered, and its name is known with as many parameters. -/
def Scoped (functions : Functions) (signatures : Signatures) : Prop :=
  ∀ name f, functions.get? name = some f →
    f.body.Scoped signatures f.prototype.params ∧
      ∃ p, signatures.get? name = some p ∧ p.arity = f.prototype.arity

/-- Every function that a name reaches is there, and none of them reaches itself. -/
structure Terminates (functions : Functions) (name : String) : Prop where
  defined : ∀ reached, Relation.ReflTransGen functions.Calls name reached →
    ∃ f, functions.get? reached = some f
  acyclic : ∀ reached, Relation.ReflTransGen functions.Calls name reached →
    ¬ Relation.TransGen functions.Calls reached reached

theorem Terminates.callee {name callee : String} (h : functions.Terminates name)
    (hcall : functions.Calls name callee) : functions.Terminates callee where
  defined reached hreached := h.defined reached (.head hcall hreached)
  acyclic reached hreached := h.acyclic reached (.head hcall hreached)

/-- Names on the way to another one: they do not repeat, and each leads to it. -/
structure Path (functions : Functions) (path : List String) (name : String) : Prop where
  distinct : path.Nodup
  leads : ∀ before ∈ path, Relation.TransGen functions.Calls before name

theorem Path.cons {path : List String} {name callee : String} (h : functions.Path path name)
    (hname : functions.Terminates name) (hcall : functions.Calls name callee) :
    functions.Path (name :: path) callee where
  distinct := by
    refine List.nodup_cons.2 ⟨fun hmem => ?_, h.distinct⟩
    exact hname.acyclic name .refl (h.leads name hmem)
  leads before hbefore := by
    rcases List.mem_cons.1 hbefore with rfl | hmem
    · exact .single hcall
    · exact (h.leads before hmem).tail hcall

theorem Path.length_lt {given path : List String} {name : String} (h : functions.Path path name)
    (hname : functions.Terminates name) (hpath : ∀ before ∈ path, before ∈ given)
    (hgiven : name ∈ given) : path.length < given.length := by
  have hdistinct : (name :: path).Nodup :=
    List.nodup_cons.2 ⟨fun hmem => hname.acyclic name .refl (h.leads name hmem), h.distinct⟩
  have hsubset : name :: path ⊆ given := by
    intro before hbefore
    rcases List.mem_cons.1 hbefore with rfl | hmem
    · exact hgiven
    · exact hpath before hmem
  have hlength := (hdistinct.subperm hsubset).length_le
  rw [List.length_cons] at hlength
  omega

/-- If all that a name reaches lies among given names, then as many levels as there are given names
off the path to it are enough. Every call puts one more of them on the path. -/
theorem call_total_after (hscoped : functions.Scoped signatures) {given path : List String}
    {depth : Nat} {name : String} {p : Prototype} {args : List Float}
    (h : functions.Terminates name) (hpath : functions.Path path name)
    (hbefore : ∀ before ∈ path, before ∈ given)
    (hgiven : ∀ reached, Relation.ReflTransGen functions.Calls name reached → reached ∈ given)
    (hdepth : given.length ≤ depth + path.length) (hp : signatures.get? name = some p)
    (hargs : p.arity = args.length) : ∃ z, functions.call depth name args = some z := by
  have hlength := hpath.length_lt h hbefore (hgiven name .refl)
  induction depth generalizing name path p args with
  | zero => omega
  | succ depth ih =>
    obtain ⟨f, hf⟩ := h.defined name .refl
    obtain ⟨hbody, q, hq, hqf⟩ := hscoped name f hf
    cases hp.symm.trans hq
    have harity : f.prototype.params.length = args.length := hqf.symm.trans hargs
    suffices hvalue : ∃ z, f.body.value (functions.call depth)
        (binding f.prototype.params args) = some z by
      obtain ⟨z, hz⟩ := hvalue
      exact ⟨z, call_succ_eq_some.2 ⟨f, hf, harity, hz⟩⟩
    refine hbody.value_total (binding_total harity) fun callee hcallee q xs hq hxs => ?_
    have hcall : functions.Calls name callee := ⟨f, hf, hcallee⟩
    have hnext := hpath.cons h hcall
    have hinside : ∀ before ∈ name :: path, before ∈ given := by
      intro before hmem
      rcases List.mem_cons.1 hmem with rfl | hmem
      · exact hgiven _ .refl
      · exact hbefore before hmem
    have hreach : ∀ reached, Relation.ReflTransGen functions.Calls callee reached →
        reached ∈ given := fun reached hreached => hgiven reached (.head hcall hreached)
    refine ih (h.callee hcall) hnext hinside hreach ?_ hq hxs ?_
    · rw [List.length_cons]
      omega
    · exact hnext.length_lt (h.callee hcall) hinside (hreach callee .refl)

/-- A call yields a value if it may go as deep as there are names that it could reach. -/
theorem call_total (hscoped : functions.Scoped signatures) {given : List String} {depth : Nat}
    {name : String} {p : Prototype} {args : List Float} (h : functions.Terminates name)
    (hgiven : ∀ reached, Relation.ReflTransGen functions.Calls name reached → reached ∈ given)
    (hdepth : given.length ≤ depth) (hp : signatures.get? name = some p)
    (hargs : p.arity = args.length) : ∃ z, functions.call depth name args = some z :=
  call_total_after hscoped h ⟨List.nodup_nil, by simp⟩ (by simp) hgiven hdepth hp hargs

/-! ### Functions in order -/

/-- Names in an order in which calls go forward: each has a function, which calls only names that
come later. -/
def inOrder (functions : Functions) : List String → Bool
  | [] => true
  | name :: rest =>
    (match functions.get? name with
      | some f => f.body.callees.all fun callee => decide (callee ∈ rest)
      | none => false) && inOrder functions rest

theorem inOrder_cons {name : String} {rest : List String} :
    functions.inOrder (name :: rest) = true ↔
      (∃ f, functions.get? name = some f ∧ ∀ callee ∈ f.body.callees, callee ∈ rest) ∧
        functions.inOrder rest = true := by
  rw [inOrder, Bool.and_eq_true]
  cases functions.get? name with
  | none => simp
  | some f => simp

theorem has_of_inOrder {names : List String} (h : functions.inOrder names = true) {name : String}
    (hname : name ∈ names) : functions.has name = true := by
  induction names with
  | nil => cases hname
  | cons first rest ih =>
    obtain ⟨⟨f, hf, _⟩, hrest⟩ := inOrder_cons.1 h
    rcases List.mem_cons.1 hname with rfl | hname
    · rw [Ledger.has, hf]
      rfl
    · exact ih hrest hname

theorem mem_of_inOrder {names : List String} (h : functions.inOrder names = true)
    {name callee : String} (hname : name ∈ names) (hcalls : functions.Calls name callee) :
    callee ∈ names := by
  induction names with
  | nil => cases hname
  | cons first rest ih =>
    obtain ⟨⟨f, hf, hcallees⟩, hrest⟩ := inOrder_cons.1 h
    rcases List.mem_cons.1 hname with rfl | hname
    · obtain ⟨g, hg, hcallee⟩ := hcalls
      cases hf.symm.trans hg
      exact List.mem_cons_of_mem _ (hcallees callee hcallee)
    · exact List.mem_cons_of_mem _ (ih hrest hname)

theorem reached_of_inOrder {names : List String} (h : functions.inOrder names = true)
    {name reached : String} (hname : name ∈ names)
    (hpath : Relation.ReflTransGen functions.Calls name reached) : reached ∈ names := by
  induction hpath with
  | refl => exact hname
  | tail _ hcalls ih => exact mem_of_inOrder h ih hcalls

theorem mem_of_reaches {names : List String} (h : functions.inOrder names = true) {e : Expr}
    (hroots : ∀ root ∈ e.callees, root ∈ names) {name : String} (hname : functions.Reaches e name) :
    name ∈ names := by
  obtain ⟨root, hroot, hpath⟩ := hname
  exact reached_of_inOrder h (hroots root hroot) hpath

theorem acyclic_of_inOrder {names : List String} (h : functions.inOrder names = true)
    {name : String} (hname : name ∈ names) : ¬ Relation.TransGen functions.Calls name name := by
  induction names with
  | nil => cases hname
  | cons first rest ih =>
    obtain ⟨⟨f, hf, hcallees⟩, hrest⟩ := inOrder_cons.1 h
    by_cases hlater : name ∈ rest
    · exact ih hrest hlater
    · obtain rfl : name = first := (List.mem_cons.1 hname).resolve_right hlater
      -- The first call leads to a later name, and from there only later ones are reached.
      intro hcycle
      obtain ⟨callee, ⟨g, hg, hcallee⟩, hpath⟩ := Relation.TransGen.head'_iff.1 hcycle
      cases hf.symm.trans hg
      exact hlater (reached_of_inOrder hrest (hcallees callee hcallee) hpath)

end Functions
end ScalarLang
