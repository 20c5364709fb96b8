import ScalarLang.Interpreter.Engine
import ScalarLang.Proofs.Session.Tally
import ScalarLang.Proofs.Unplaced

/-!
# Engines that ignore places

What an engine makes of a form, and what a session counts and writes of that, do not depend on the
places that the form and the store name. The interpreter is such an engine: lowering only passes
places on into rejections, and code has none.
-/
namespace ScalarLang

def Verdict.unplaced : Verdict → Verdict
  | rejected d => rejected { d with location := none }
  | verdict => verdict

/-- What the engine makes of a form, and what is written of that, is the same without places;
`forget` takes those of a store away. -/
structure Engine.IgnoresPlaces {σ η : Type} (engine : Engine σ η) (forget : σ → σ) : Prop where
  verdict : ∀ kind form s, (engine.verdict kind form.unplaced (forget s)).1.unplaced =
    (engine.verdict kind form s).1.unplaced
  store : ∀ kind form s,
    (engine.verdict kind form.unplaced (forget s)).2 = forget (engine.verdict kind form s).2
  announced : ∀ kind form s,
    Event.entries engine.describe (engine.announcement kind form.unplaced (forget s)) =
      Event.entries engine.describe (engine.announcement kind form s)

/-! ### The interpreter -/

theorem mapM_mapError {ε α γ : Type} {f g : α → Except ε γ} {h : α → α} {e : ε → ε} {xs : List α}
    (hfg : ∀ x ∈ xs, g (h x) = (f x).mapError e) :
    (xs.map h).mapM g = (xs.mapM f).mapError e := by
  induction xs with
  | nil => rfl
  | cons x rest ih =>
    have hx := hfg x (List.mem_cons_self ..)
    have hrest := ih fun y hy => hfg y (List.mem_cons_of_mem _ hy)
    rw [List.map_cons, List.mapM_cons, List.mapM_cons, hx, hrest]
    cases f x with
    | error own => rfl
    | ok y =>
      cases rest.mapM f with
      | error own => rfl
      | ok ys => rfl

namespace Code

theorem lower_unplaced (signatures : Signatures) (params : List String) (home : Option Location)
    (depth : Nat) (e : Expr) :
    lower ⟨signatures.unplaced, params, none⟩ depth e.unplaced =
      (lower ⟨signatures, params, home⟩ depth e).mapError Rejection.unplaced := by
  induction depth generalizing e with
  | zero => rfl
  | succ depth ih =>
    cases e with
    | number value location => rfl
    | var name location =>
      simp only [Expr.unplaced, lower]
      cases lastIndex? params name with
      | none => rfl
      | some index => rfl
    | binary op lhs rhs location =>
      simp only [Expr.unplaced, lower, ih]
      cases lower ⟨signatures, params, home⟩ depth lhs with
      | error rejection => rfl
      | ok l =>
        cases lower ⟨signatures, params, home⟩ depth rhs with
        | error rejection => rfl
        | ok r =>
          simp only [mapError_ok, bind, Except.bind]
          cases Operation.ofSymbol? op with
          | none => rfl
          | some operation => rfl
    | call callee args location =>
      have hargs : (args.map Expr.unplaced).mapM (lower ⟨signatures.unplaced, params, none⟩ depth) =
          (args.mapM (lower ⟨signatures, params, home⟩ depth)).mapError Rejection.unplaced :=
        mapM_mapError fun arg _ => ih arg
      simp only [Expr.unplaced, Expr.unplacedAll_eq_map, lower, List.length_map,
        signatures.resolve_unplaced callee args.length location, hargs]
      cases signatures.resolve callee args.length location with
      | error rejection => rfl
      | ok p =>
        cases args.mapM (lower ⟨signatures, params, home⟩ depth) with
        | error rejection => rfl
        | ok codes => rfl

/-- Code only asks for the bodies of functions. -/
theorem run_unplaced (natives : Ledger String Native)
    (definitions : Ledger String (Definition Code)) (depth : Nat) (code : Code)
    (args : List Float) :
    run natives (definitions.mapValues Definition.unplaced) depth code args =
      run natives definitions depth code args := by
  induction depth generalizing code args with
  | zero => rfl
  | succ depth ih =>
    cases code with
    | number value => rfl
    | argument index => rfl
    | operation op lhs rhs => simp only [run, ih]
    | call callee params =>
      simp only [run, ih, Ledger.get?_mapValues]
      cases definitions.get? callee with
      | none => rfl
      | some d =>
        simp only [Option.map_some, Definition.unplaced]

end Code

namespace Interpreter

variable {natives : Ledger String Native} {limit : Nat}

theorem lower_unplaced (signatures : Signatures) (f : Function) :
    lower limit signatures.unplaced f.unplaced =
      (lower limit signatures f).mapError Rejection.unplaced :=
  Code.lower_unplaced signatures f.prototype.params f.prototype.location limit f.body

theorem describe_unplaced (handle : Handle Code) : describe handle.unplaced = describe handle := by
  cases handle with
  | declared requested recorded => exact recorded.print_unplaced
  | defined d => exact d.function.print_unplaced
  | plain name arity => rfl

theorem execute_unplaced (s : Store Code) (handle : Handle Code) :
    execute natives limit s.unplaced handle.unplaced = execute natives limit s handle := by
  have hrun : ∀ depth code args,
      Code.run natives s.unplaced.definitions depth code args =
        Code.run natives s.definitions depth code args :=
    Code.run_unplaced natives s.definitions
  unfold execute
  cases handle with
  | declared requested recorded => simp only [Handle.unplaced, hrun]; rfl
  | defined d => simp only [Handle.unplaced, hrun]; rfl
  | plain name arity => simp only [Handle.unplaced, hrun]

theorem submit_unplaced (form : Form) (s : Store Code) :
    Session.submit (engine natives limit) form.unplaced s.unplaced =
      Store.answerUnplaced Handle.unplaced (Session.submit (engine natives limit) form s) := by
  cases form with
  | external p => exact Store.declare_unplaced p s
  | function f =>
    have hdefine := Store.define_unplaced (@lower_unplaced limit) f s
    have hsubmit : ∀ (g : Function) (store : Store Code),
        Session.submit (engine natives limit) (.function g) store =
          (Lowered.map Handle.defined <$> Store.define (lower limit) g) store := fun _ _ => rfl
    rw [Form.unplaced, hsubmit, hsubmit]
    cases hd : Store.define (lower limit) f s with
    | ok lowered after =>
      rw [hd] at hdefine
      rw [step_map_ok hdefine, step_map_ok hd]
      rfl
    | error rejection after =>
      rw [hd] at hdefine
      rw [step_map_error hdefine, step_map_error hd]
      rfl

theorem outcome_unplaced (handle : Handle Code) (s : Store Code) :
    (engine natives limit).outcome handle.unplaced s.unplaced =
      (((engine natives limit).outcome handle s).1,
        ((engine natives limit).outcome handle s).2.unplaced) := by
  have hexecute : ∀ (own : Handle Code) (store : Store Code),
      (engine natives limit).execute own store =
        (ofExcept (execute natives limit store own) : EStateM Trap (Store Code) Float) store :=
    fun _ _ => rfl
  unfold Engine.outcome
  rw [hexecute, hexecute, execute_unplaced]
  cases execute natives limit s handle with
  | ok x => rfl
  | error trap => cases trap <;> rfl

theorem verdict_unplaced (kind : FormKind) (form : Form) (s : Store Code) :
    ((engine natives limit).verdict kind form.unplaced s.unplaced).1.unplaced =
        ((engine natives limit).verdict kind form s).1.unplaced ∧
      ((engine natives limit).verdict kind form.unplaced s.unplaced).2 =
        ((engine natives limit).verdict kind form s).2.unplaced := by
  unfold Engine.verdict
  rw [submit_unplaced]
  cases Session.submit (engine natives limit) form s with
  | error rejection after =>
    refine ⟨?_, rfl⟩
    simp only [Store.answerUnplaced, Rejection.diagnostic_unplaced]
    rfl
  | ok lowered after =>
    cases kind with
    | expression =>
      have houtcome := @outcome_unplaced natives limit lowered.handle after
      exact ⟨congrArg (fun pair => pair.1.unplaced) houtcome, congrArg Prod.snd houtcome⟩
    | _ => exact ⟨rfl, rfl⟩

theorem ignoresPlaces (natives : Ledger String Native) (limit : Nat) :
    (engine natives limit).IgnoresPlaces Store.unplaced where
  verdict kind form s := (verdict_unplaced kind form s).1
  store kind form s := (verdict_unplaced kind form s).2
  announced kind form s := by
    unfold Engine.announcement
    rw [submit_unplaced]
    cases Session.submit (engine natives limit) form s with
    | error rejection after => rfl
    | ok lowered after =>
      have hecho : ∀ handle : Handle Code,
          Event.entries (engine natives limit).describe [.echo kind handle.unplaced] =
            Event.entries (engine natives limit).describe [.echo kind handle] := by
        intro handle
        exact congrArg (fun text => [Entry.echo kind text]) (describe_unplaced handle)
      cases kind with
      | expression =>
        simp only [Store.answerUnplaced, Event.entries_append, Event.entries_logged,
          List.nil_append, List.append_nil]
        exact hecho lowered.handle
      | _ =>
        simp only [Store.answerUnplaced, Event.entries_append, Event.entries_logged,
          List.nil_append]
        exact hecho lowered.handle

end Interpreter
end ScalarLang
