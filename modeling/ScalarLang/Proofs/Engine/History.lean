import ScalarLang.IR.Engine
import ScalarLang.Interpreter.Engine
import ScalarLang.Proofs.Engine.Transaction
import ScalarLang.Proofs.Outcome

/-!
# Histories of requests

An engine serves one request after the other: declarations, definitions and executions. A request
that fails leaves the store as it was, so the failed requests of a history can be left out without a
change to the answers of the others or to the store at the end. The argument is made once for all
engines that keep an invariant and restore the store (`Atomic`); the two engines are such for stores
without an open scope.
-/
namespace ScalarLang

variable {σ η : Type}

inductive Request (η : Type) where
  | declare (p : Prototype)
  | define (f : Function)
  | execute (handle : η)

inductive Answer (η : Type) where
  | lowered (l : Lowered η)
  | value (x : Float)
  | rejected (rejection : Rejection)
  | trapped (trap : Trap)

namespace Answer

/-- Whether the engine reports that the request failed. A fault that it does not report itself is
passed on to the caller and is no failure in this sense. -/
def failed : Answer η → Bool
  | rejected _ => true
  | trapped trap => trap.diagnostic?.isSome
  | _ => false

end Answer

namespace Engine

def perform (engine : Engine σ η) (s : σ) : Request η → Answer η × σ
  | .declare p =>
    match engine.declare p s with
    | .ok l after => (.lowered l, after)
    | .error rejection after => (.rejected rejection, after)
  | .define f =>
    match engine.define f s with
    | .ok l after => (.lowered l, after)
    | .error rejection after => (.rejected rejection, after)
  | .execute handle =>
    match engine.execute handle s with
    | .ok x after => (.value x, after)
    | .error trap after => (.trapped trap, after)

/-- Serves requests one after the other: the answers in order, and the store after all of them. -/
def serve (engine : Engine σ η) : σ → List (Request η) → List (Answer η) × σ
  | s, [] => ([], s)
  | s, request :: rest =>
    let (answer, after) := engine.perform s request
    let (answers, final) := engine.serve after rest
    (answer :: answers, final)

/-- The requests that do not fail when all of them are served. -/
def survivors (engine : Engine σ η) (s : σ) (requests : List (Request η)) : List (Request η) :=
  ((requests.zip (engine.serve s requests).1).filter fun pair => !pair.2.failed).map (·.1)

/-- No request that fails leaves a trace: the store after it is the store before it, and serving
only the other requests gives the same answers to them and the same store at the end. -/
structure Traceless (engine : Engine σ η) (s : σ) (requests : List (Request η)) : Prop where
  restored : ∀ before request rest, requests = before ++ request :: rest →
    (engine.perform (engine.serve s before).2 request).1.failed = true →
    (engine.perform (engine.serve s before).2 request).2 = (engine.serve s before).2
  replayed : engine.serve s (engine.survivors s requests) =
    ((engine.serve s requests).1.filter fun answer => !answer.failed, (engine.serve s requests).2)

/-- Every request keeps the invariant, and one that fails restores the store. -/
structure Atomic (engine : Engine σ η) (inv : σ → Prop) : Prop where
  keeps : ∀ s request, inv s → inv (engine.perform s request).2
  restores : ∀ s request, inv s → (engine.perform s request).1.failed = true →
    (engine.perform s request).2 = s

theorem serve_cons (engine : Engine σ η) (s : σ) (request : Request η)
    (rest : List (Request η)) :
    engine.serve s (request :: rest) =
      ((engine.perform s request).1 :: (engine.serve (engine.perform s request).2 rest).1,
        (engine.serve (engine.perform s request).2 rest).2) := rfl

theorem survivors_cons (engine : Engine σ η) (s : σ) (request : Request η)
    (rest : List (Request η)) :
    engine.survivors s (request :: rest) =
      if (engine.perform s request).1.failed then
        engine.survivors (engine.perform s request).2 rest
      else request :: engine.survivors (engine.perform s request).2 rest := by
  simp only [survivors, serve_cons, List.zip_cons_cons, List.filter_cons]
  by_cases hf : (engine.perform s request).1.failed = true
  · simp [hf]
  · simp [hf]

namespace Atomic

variable {engine : Engine σ η} {inv : σ → Prop}

theorem keeps_serve (h : Atomic engine inv) {s : σ} (hs : inv s) (requests : List (Request η)) :
    inv (engine.serve s requests).2 := by
  induction requests generalizing s with
  | nil => exact hs
  | cons request rest ih =>
    rw [serve_cons]
    exact ih (h.keeps s request hs)

theorem serve_survivors (h : Atomic engine inv) {s : σ} (hs : inv s)
    (requests : List (Request η)) :
    engine.serve s (engine.survivors s requests) =
      ((engine.serve s requests).1.filter fun answer => !answer.failed,
        (engine.serve s requests).2) := by
  induction requests generalizing s with
  | nil => rfl
  | cons request rest ih =>
    have hrest := ih (h.keeps s request hs)
    rw [survivors_cons]
    by_cases hf : (engine.perform s request).1.failed = true
    · -- The request is left out, and the others start from the store that it restored.
      have hback := h.restores s request hs hf
      rw [hback] at hrest
      simp only [serve_cons, hback, hf, if_true]
      rw [hrest]
      simp [hf]
    · simp only [serve_cons, hf, Bool.false_eq_true, if_false, hrest]
      simp [hf]

theorem traceless (h : Atomic engine inv) {s : σ} (hs : inv s) (requests : List (Request η)) :
    engine.Traceless s requests where
  restored before request _ _ hf := h.restores _ request (h.keeps_serve hs before) hf
  replayed := h.serve_survivors hs requests

end Atomic
end Engine

/-! ### The engines -/

namespace Store

variable {β : Type}

/-- No function is being lowered. -/
def Closed (s : Store β) : Prop := s.scope = none

theorem closed_empty : Closed ({} : Store β) := rfl

theorem closed_declare {p : Prototype} {s after : Store β} {l : Lowered (Handle β)}
    (hs : s.Closed) (h : declare p s = .ok l after) : after.Closed := by
  rcases declare_ok h with ⟨known, hk, ha, hl, rfl⟩ | ⟨hk, hl, rfl⟩
  · exact hs
  · exact (record_scope s p).trans hs

theorem closed_define {lower : Signatures → Function → Except Rejection β} {f : Function}
    {s after : Store β} {l : Lowered (Definition β)}
    (hs : s.Closed) (h : define lower f s = .ok l after) : after.Closed := by
  obtain ⟨he, body, hb, hl, rfl⟩ := define_ok hs h
  exact (keep_scope _ _).trans ((record_scope _ _).trans hs)

end Store

namespace Engine

variable {β : Type}

/-- An engine that declares and defines in a store, and leaves it alone when it executes. -/
structure OnStore (engine : Engine (Store β) (Handle β))
    (lower : Signatures → Function → Except Rejection β) : Prop where
  declare : engine.declare = Store.declare
  define : engine.define = fun f => Lowered.map .defined <$> Store.define lower f
  execute : ∀ s handle, Store.Closed s →
    (∃ x, engine.execute handle s = .ok x s) ∨ ∃ trap, engine.execute handle s = .error trap s

namespace OnStore

variable {engine : Engine (Store β) (Handle β)}
  {lower : Signatures → Function → Except Rejection β}

/-- All that a request can do: it returns no handle and leaves the store alone, or it is a
declaration or a definition that is accepted. -/
theorem perform_cases (h : engine.OnStore lower) {s : Store β} (hs : s.Closed)
    (request : Request (Handle β)) :
    (∃ answer, engine.perform s request = (answer, s) ∧ ∀ l, answer ≠ .lowered l) ∨
    (∃ p l after, request = .declare p ∧ Store.declare p s = .ok l after ∧
      engine.perform s request = (.lowered l, after)) ∨
    ∃ f l after, request = .define f ∧ Store.define lower f s = .ok l after ∧
      engine.perform s request = (.lowered (l.map .defined), after) := by
  cases request with
  | declare p =>
    cases hd : Store.declare p s with
    | ok l after => exact Or.inr (Or.inl ⟨p, l, after, rfl, hd, by simp [perform, h.declare, hd]⟩)
    | error rejection after =>
      obtain rfl := Store.declare_error hd
      exact Or.inl ⟨.rejected rejection, by simp [perform, h.declare, hd], fun l hl => by cases hl⟩
  | define f =>
    cases hd : Store.define lower f s with
    | ok l after =>
      exact Or.inr (Or.inr ⟨f, l, after, rfl, hd, by simp [perform, h.define, step_map_ok hd]⟩)
    | error rejection after =>
      obtain rfl := Store.define_error hs hd
      exact Or.inl ⟨.rejected rejection, by simp [perform, h.define, step_map_error hd],
        fun l hl => by cases hl⟩
  | execute handle =>
    rcases h.execute s handle hs with ⟨x, hx⟩ | ⟨trap, hx⟩
    · exact Or.inl ⟨.value x, by simp [perform, hx], fun l hl => by cases hl⟩
    · exact Or.inl ⟨.trapped trap, by simp [perform, hx], fun l hl => by cases hl⟩

theorem atomic (h : engine.OnStore lower) : engine.Atomic Store.Closed where
  keeps s request hs := by
    rcases h.perform_cases hs request with ⟨answer, hr, _⟩ | ⟨p, l, after, _, hd, hr⟩ |
      ⟨f, l, after, _, hd, hr⟩
    · rw [hr]
      exact hs
    · rw [hr]
      exact Store.closed_declare hs hd
    · rw [hr]
      exact Store.closed_define hs hd
  restores s request hs hf := by
    rcases h.perform_cases hs request with ⟨answer, hr, _⟩ | ⟨p, l, after, _, hd, hr⟩ |
      ⟨f, l, after, _, hd, hr⟩
    · rw [hr]
    · simp [hr, Answer.failed] at hf
    · simp [hr, Answer.failed] at hf

end OnStore
end Engine

theorem Interpreter.onStore (natives : Ledger String Native) (depth : Nat) :
    (Interpreter.engine natives depth).OnStore (Interpreter.lower depth) := by
  refine ⟨rfl, rfl, fun s handle _ => ?_⟩
  rcases ofExcept_cases (Interpreter.execute natives depth s handle) s with
    ⟨x, _, hx⟩ | ⟨trap, _, hx⟩
  · exact Or.inl ⟨x, hx⟩
  · exact Or.inr ⟨trap, hx⟩

/-- Lowering the wrapper of a call leaves no trace either, since it has no name. -/
theorem IR.runnable_cases (runtime : IR.Runtime) (depth : Nat) (handle : Handle IR.Module)
    {s : Store IR.Module} (hs : s.Closed) :
    (∃ m, IR.runnable runtime depth handle s = .ok m s) ∨
      ∃ rejection, IR.runnable runtime depth handle s = .error rejection s := by
  have wrapper : ∀ name : String,
      let step := (fun lowered : Lowered (Definition IR.Module) => lowered.handle.body) <$>
        Store.define (IR.compile runtime depth) ⟨⟨"", [], none⟩, .call name [] none⟩
      (∃ m, step s = .ok m s) ∨ ∃ rejection, step s = .error rejection s := by
    intro name step
    cases hd : Store.define (IR.compile runtime depth) ⟨⟨"", [], none⟩, .call name [] none⟩ s with
    | ok l after =>
      obtain ⟨_, body, _, _, rfl⟩ := Store.define_ok hs hd
      exact Or.inl ⟨l.handle.body, step_map_ok hd⟩
    | error rejection after =>
      obtain rfl := Store.define_error hs hd
      exact Or.inr ⟨rejection, step_map_error hd⟩
  cases handle with
  | defined d => exact Or.inl ⟨d.body, rfl⟩
  | declared requested recorded => exact wrapper requested.name
  | plain name arity => exact wrapper name

theorem IR.onStore (runtime : IR.Runtime) (depth : Nat) :
    (IR.engine depth runtime).OnStore (IR.compile runtime depth) := by
  refine ⟨rfl, rfl, fun s handle hs => ?_⟩
  change (∃ x, IR.execute runtime depth handle s = .ok x s) ∨
    ∃ trap, IR.execute runtime depth handle s = .error trap s
  unfold IR.execute
  split
  · rcases IR.runnable_cases runtime depth handle hs with ⟨m, hm⟩ | ⟨rejection, hm⟩
    · rw [hm]
      rcases ofExcept_cases (IR.launch runtime s m) s with ⟨x, _, hx⟩ | ⟨trap, _, hx⟩
      · exact Or.inl ⟨x, hx⟩
      · exact Or.inr ⟨trap, hx⟩
    · rw [hm]
      exact Or.inr ⟨_, rfl⟩
  · exact Or.inr ⟨_, rfl⟩

/-- Whatever requests an engine has served, no scope is open, and of the requests that it is given
next those that fail leave no trace: also a function whose code the runtime complains about, and a
run that it refuses. -/
theorem failed_requests_leave_no_trace (natives : Ledger String Native) (runtime : IR.Runtime)
    (depth : Nat) :
    (∀ history requests, let s := ((Interpreter.engine natives depth).serve {} history).2
      s.scope = none ∧ (Interpreter.engine natives depth).Traceless s requests) ∧
    ∀ history requests, let s := ((IR.engine depth runtime).serve {} history).2
      s.scope = none ∧ (IR.engine depth runtime).Traceless s requests := by
  constructor
  · intro history requests
    have hatomic := (Interpreter.onStore natives depth).atomic
    have hs := hatomic.keeps_serve Store.closed_empty history
    exact ⟨hs, hatomic.traceless hs requests⟩
  · intro history requests
    have hatomic := (IR.onStore runtime depth).atomic
    have hs := hatomic.keeps_serve Store.closed_empty history
    exact ⟨hs, hatomic.traceless hs requests⟩

/-- The runtime complains about code whose name it takes for an instruction: what was declared
before stays as it was. -/
example :
    let refusing : IR.Runtime :=
      { IR.Runtime.standard with
        complaint? := fun m => if IR.Runtime.isIntrinsic m.name then some "no intrinsic" else none }
    let engine := IR.engine 9 refusing
    let s := (engine.serve {} [.declare ⟨"llvm.x", ["a"], none⟩]).2
    engine.perform s (.define ⟨⟨"llvm.x", ["b"], none⟩, .var "b" none⟩) =
      (.rejected ⟨.invalidCode "llvm.x" "no intrinsic", none⟩, s) := by
  rfl

end ScalarLang
