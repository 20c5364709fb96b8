import ScalarLang.Proofs.Engine.Meaning
import ScalarLang.Proofs.Engine.Returned

/-!
# Lowered code means what its expression says

Lowering replaces variables by positions among the arguments and leaves callees as names. Running
what was lowered is compared with an evaluator that works on the expression itself and looks
variables up by name. Both have the same result under every depth budget, errors included, so they
also fail at the same point; the functions that are called are those that have a body when the code
runs, and not those of the time when it was lowered.
-/
namespace ScalarLang

/-! ### Evaluating expressions -/

/-- What variables hold: each parameter its argument, the last one if a name is repeated. -/
def environment (params : List String) (args : List Float) (name : String) : Option Float :=
  (params.zip args).reverse.lookup name

def operator? : String → Option (Float → Float → Float)
  | "+" => some fun x y => x + y
  | "-" => some fun x y => x - y
  | "*" => some fun x y => x * y
  | "<" => some fun x y => if x ≥ y then 0.0 else 1.0
  | _ => none

namespace Expr

/-- Evaluates an expression. Operands and arguments are evaluated from left to right; a call enters
the function of that name, and else the native one. Each expression inside another takes one level
of the depth budget, also where a function is entered. -/
def evaluate (natives : Ledger String Native) (functions : Functions) :
    Nat → (String → Option Float) → Expr → Except Trap Float
  | 0, _, _ => .error .depth
  | _ + 1, _, .number value _ => .ok value
  | _ + 1, env, .var name location =>
    match env name with
    | some x => .ok x
    | none => .error (.rejected ⟨.unknownVariable name, location⟩)
  | depth + 1, env, .binary op lhs rhs location => do
    let x ← evaluate natives functions depth env lhs
    let y ← evaluate natives functions depth env rhs
    match operator? op with
    | some compute => .ok (compute x y)
    | none => .error (.rejected ⟨.unknownOperator op, location⟩)
  | depth + 1, env, .call callee args _ => do
    let xs ← args.mapM (evaluate natives functions depth env)
    match functions.get? callee with
    | some f => evaluate natives functions depth (environment f.prototype.params xs) f.body
    | none => Code.callNative natives callee xs

end Expr

/-! ### Names and positions -/

theorem lookup_append_one {α : Type} (entries : List (String × α)) (own : String) (value : α)
    (name : String) :
    (entries ++ [(own, value)]).lookup name =
      (entries.lookup name).or (if own = name then some value else none) := by
  induction entries with
  | nil =>
    by_cases h : own = name
    · simp [h]
    · have hne : (name == own) = false := by simpa using Ne.symm h
      simp [List.lookup_cons, h, hne]
  | cons entry rest ih =>
    rw [List.cons_append, List.lookup_cons, List.lookup_cons]
    split
    · rfl
    · exact ih

/-- The argument of a name is that at the position of the name. -/
theorem environment_eq_binding {params : List String} {args : List Float}
    (hlength : params.length = args.length) : environment params args = binding params args := by
  funext name
  induction params generalizing args with
  | nil => rfl
  | cons param rest ih =>
    cases args with
    | nil => cases hlength
    | cons x xs =>
      have hrest : rest.length = xs.length := Nat.succ.inj hlength
      have htail := ih hrest
      unfold environment binding at htail ⊢
      rw [List.zip_cons_cons, List.reverse_cons, lookup_append_one, htail, lastIndex?]
      cases hindex : lastIndex? rest name with
      | some index =>
        have hlt : index < xs.length := hrest ▸ Code.lastIndex?_lt hindex
        simp [hlt]
      | none =>
        by_cases hparam : param = name
        · simp [hparam]
        · simp [hparam]

theorem operator?_eq_map (op : String) :
    operator? op = (Operation.ofSymbol? op).map Operation.apply := by
  unfold operator? Operation.ofSymbol?
  split
  · rfl
  · rfl
  · rfl
  · rfl
  · simp_all

theorem mapM_eq_mapM {ε α β γ : Type} {f : α → Except ε γ} {g : β → Except ε γ} {as : List α}
    {bs : List β} (h : List.Forall₂ (fun a b => f a = g b) as bs) : as.mapM f = bs.mapM g := by
  induction h with
  | nil => rfl
  | cons hab _ ih => rw [List.mapM_cons, List.mapM_cons, hab, ih]

theorem length_of_mapM {ε α β : Type} {f : α → Except ε β} {as : List α} {bs : List β}
    (h : as.mapM f = .ok bs) : bs.length = as.length :=
  (forall₂_of_mapM h).length_eq.symm

/-! ### Running lowered code -/

namespace Code

variable {limit : Nat} {s : Store Code} {params : List String} {home : Option Location}

/-- The induction is on the depth budget of the run, for all functions at once: a call enters a body
that was lowered with a scope of its own. That the body gets as many arguments as it has parameters
comes from the signatures, under which both the caller and the callee are lowered. -/
theorem run_eq_evaluate (natives : Ledger String Native) (hs : s.Current (Interpreter.lower limit))
    {depth bound : Nat} {e : Expr} {code : Code} {args : List Float}
    (h : lower ⟨s.signatures, params, home⟩ bound e = .ok code)
    (hlength : params.length = args.length) :
    code.run natives s.definitions depth args =
      e.evaluate natives s.functions depth (environment params args) := by
  induction depth generalizing bound e code params args home with
  | zero => rfl
  | succ depth ih =>
    cases bound with
    | zero => simp [lower] at h
    | succ bound =>
      cases e with
      | number value location =>
        cases h
        rfl
      | var name location =>
        simp only [lower] at h
        split at h
        · next index hindex =>
          cases h
          have hlt : index < args.length := hlength ▸ lastIndex?_lt hindex
          rw [environment_eq_binding hlength]
          simp [run, Expr.evaluate, binding, hindex, hlt]
        · cases h
      | binary op lhs rhs location =>
        simp only [lower] at h
        obtain ⟨l, hl, h⟩ := bind_eq_ok.1 h
        obtain ⟨r, hr, h⟩ := bind_eq_ok.1 h
        split at h
        · next operation hop =>
          cases h
          have hcompute : operator? op = some operation.apply := by
            rw [operator?_eq_map, hop, Option.map_some]
          simp only [run, Expr.evaluate, ih hl hlength, ih hr hlength, hcompute]
        · cases h
      | call callee exprs location =>
        simp only [lower] at h
        obtain ⟨p, hp, h⟩ := bind_eq_ok.1 h
        obtain ⟨codes, hcodes, h⟩ := bind_eq_ok.1 h
        cases h
        obtain ⟨hget, harity⟩ := Signatures.resolve_eq_ok hp
        have hargs : codes.mapM (fun code => run natives s.definitions depth code args) =
            exprs.mapM (Expr.evaluate natives s.functions depth (environment params args)) := by
          refine mapM_eq_mapM ((forall₂_of_mapM hcodes).flip.imp fun code e he => ?_)
          exact ih he hlength
        cases hd : s.definitions.get? callee with
        | none =>
          have hnone : s.functions.get? callee = none := by
            rw [Store.get?_functions, hd, Option.map_none]
          simp only [run, Expr.evaluate, hargs, hd, hnone]
        | some d =>
          have hsome : s.functions.get? callee = some d.function := by
            rw [Store.get?_functions, hd, Option.map_some]
          simp only [run, Expr.evaluate, hargs, hd, hsome]
          cases hxs : exprs.mapM
              (Expr.evaluate natives s.functions depth (environment params args)) with
          | error trap => rfl
          | ok xs =>
            have hcount : xs.length = exprs.length := length_of_mapM hxs
            cases hget.symm.trans (hs.known callee d hd)
            exact ih (hs.lowered callee d hd) (harity.trans hcount.symm)

end Code

namespace Interpreter

/-- Whatever an engine has lowered, and whatever was requested since: running the code on as many
arguments as the function has parameters has the result of evaluating the body with the parameters
bound to the arguments, under every depth budget. -/
theorem lowered_code_means_its_expression (natives : Ledger String Native) (limit : Nat)
    (history : List (Request (Handle Code))) {d : Definition Code}
    (hreturned : .defined d ∈ Answer.handles ((engine natives limit).serve {} history).1)
    {args : List Float} (hargs : args.length = d.function.prototype.arity) (depth : Nat) :
    let s := ((engine natives limit).serve {} history).2
    d.body.run natives s.definitions depth args =
      d.function.body.evaluate natives s.functions depth
        (environment d.function.prototype.params args) := by
  intro s
  have hengine := onStore natives limit
  have hs : s.Current (lower limit) := Engine.serve_current hengine (lasting limit) history
  have hbody : lower limit s.signatures d.function = .ok d.body :=
    Engine.serve_lowered hengine (lasting limit) Store.closed_empty hreturned
  exact Code.run_eq_evaluate natives hs hbody hargs.symm

/-- A function whose parameter is repeated, and which calls one that gets its body afterwards. -/
theorem lowered_code_means_its_expression_repeated_parameter :
    let f : Function := ⟨⟨"f", ["x", "x"], none⟩,
      .binary "-" (.call "g" [.var "x" none] none) (.var "x" none) none⟩
    let code : Code := .operation (.arithmetic .sub) (.call "g" [.argument 1]) (.argument 1)
    let history : List (Request (Handle Code)) :=
      [.declare ⟨"g", ["a"], none⟩, .define f, .define ⟨⟨"g", ["b"], none⟩, .var "b" none⟩]
    let s := ((engine [] 9).serve {} history).2
    (.defined ⟨f, code⟩ ∈ Answer.handles ((engine [] 9).serve {} history).1 ∧
      [1.0, 2.0].length = f.prototype.arity) ∧
    code.run [] s.definitions 9 [1.0, 2.0] =
      f.body.evaluate [] s.functions 9 (environment ["x", "x"] [1.0, 2.0]) := by
  intro f code history s
  have hreturned : .defined ⟨f, code⟩ ∈
      Answer.handles ((engine [] 9).serve {} history).1 :=
    List.Mem.tail _ (List.Mem.head _)
  exact ⟨⟨hreturned, rfl⟩, lowered_code_means_its_expression [] 9 history hreturned rfl 9⟩

end Interpreter
end ScalarLang
