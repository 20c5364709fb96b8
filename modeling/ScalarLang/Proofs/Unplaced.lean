import ScalarLang.Engine.Store
import ScalarLang.Proofs.Outcome
import ScalarLang.Syntax.Printer
import ScalarLang.Token.Scan

/-!
# Places do not matter

Locations serve messages only. Whatever is made of a form, its text and every decision of a store
about it are the same without them: forgetting the places of a form and of a store first, and then
declaring or defining, is the same as forgetting them afterwards.
-/
namespace ScalarLang

/-! ### Ledgers -/

namespace Ledger

variable {κ α β : Type} [BEq κ]

/-- The ledger with other values. -/
def mapValues (g : α → β) (ledger : Ledger κ α) : Ledger κ β :=
  ledger.map fun entry => (entry.1, g entry.2)

@[simp] theorem get?_mapValues (g : α → β) (ledger : Ledger κ α) (key : κ) :
    (ledger.mapValues g).get? key = (ledger.get? key).map g := by
  induction ledger with
  | nil => rfl
  | cons entry rest ih =>
    obtain ⟨own, value⟩ := entry
    have hcons : mapValues g ((own, value) :: rest) = (own, g value) :: mapValues g rest := rfl
    rw [hcons, get?_cons, get?_cons, ih]
    split
    · rfl
    · rfl

theorem put_mapValues (g : α → β) (ledger : Ledger κ α) (key : κ) (value : α) :
    (ledger.put key value).mapValues g = Ledger.put (ledger.mapValues g) key (g value) := by
  induction ledger with
  | nil => rfl
  | cons entry rest ih =>
    obtain ⟨own, old⟩ := entry
    have hcons : mapValues g ((own, old) :: rest) = (own, g old) :: mapValues g rest := rfl
    rw [hcons, put, put]
    split
    · rfl
    · rw [← ih]
      rfl

theorem erase_mapValues (g : α → β) (ledger : Ledger κ α) (key : κ) :
    (ledger.erase key).mapValues g = Ledger.erase (ledger.mapValues g) key := by
  induction ledger with
  | nil => rfl
  | cons entry rest ih =>
    obtain ⟨own, old⟩ := entry
    have hcons : mapValues g ((own, old) :: rest) = (own, g old) :: mapValues g rest := rfl
    rw [hcons, erase, erase]
    split
    · rfl
    · rw [← ih]
      rfl

end Ledger

/-! ### Items -/

/-- The token without its place. -/
def Token.unplaced (t : Token) : Token := { t with location := none }

/-- The item without its place. A malformed literal has to have one. -/
def Item.unplaced : Item → Item
  | token t => token t.unplaced
  | malformed fault => malformed { fault with location := default }

/-- The item of a lexeme, without its place. -/
def Lexeme.bare (l : Lexeme) : Item := l.item.unplaced

@[simp] theorem Item.isEnd_unplaced (item : Item) : item.unplaced.isEnd = item.isEnd := by
  cases item <;> rfl

/-- Items that are the same up to places are two tokens or two malformed literals. -/
theorem Item.cases_of_unplaced {item other : Item} (h : other.unplaced = item.unplaced) :
    (∃ t u, item = .token t ∧ other = .token u ∧ t.unplaced = u.unplaced) ∨
      ∃ fault own, item = .malformed fault ∧ other = .malformed own ∧
        own.literal = fault.literal := by
  cases item with
  | token t =>
    cases other with
    | token u => exact Or.inl ⟨t, u, rfl, rfl, (Item.token.inj h).symm⟩
    | malformed own => cases h
  | malformed fault =>
    cases other with
    | token u => cases h
    | malformed own =>
      have hliteral := congrArg Malformed.literal (Item.malformed.inj h)
      exact Or.inr ⟨fault, own, rfl, rfl, hliteral⟩

theorem Malformed.message_eq {fault own : Malformed} (h : fault.literal = own.literal) :
    fault.diagnostic.message = own.diagnostic.message := by
  obtain ⟨literal, location⟩ := fault
  obtain ⟨literal', location'⟩ := own
  change literal = literal' at h
  subst h
  rfl

theorem Token.kind_eq_of_unplaced {t u : Token} (h : t.unplaced = u.unplaced) :
    t.kind = u.kind := by
  have hkind := congrArg Token.kind h
  exact hkind

/-! ### Forms -/

namespace Expr

mutual

/-- The expression without places. -/
def unplaced : Expr → Expr
  | number value _ => number value none
  | var name _ => var name none
  | binary op lhs rhs _ => binary op (unplaced lhs) (unplaced rhs) none
  | call callee args _ => call callee (unplacedAll args) none

def unplacedAll : List Expr → List Expr
  | [] => []
  | e :: rest => unplaced e :: unplacedAll rest

end

theorem unplacedAll_eq_map (es : List Expr) : unplacedAll es = es.map unplaced := by
  induction es with
  | nil => rfl
  | cons e rest ih => rw [unplacedAll, ih, List.map_cons]

mutual

theorem print_unplaced : ∀ e : Expr, e.unplaced.print = e.print
  | number _ _ => rfl
  | var _ _ => rfl
  | binary op lhs rhs _ => by
    rw [unplaced, print, print, print_unplaced lhs, print_unplaced rhs]
  | call callee args _ => by
    rw [unplaced, print, print, printArgs_unplaced args]

theorem printArgs_unplaced : ∀ es : List Expr, printArgs (unplacedAll es) = printArgs es
  | [] => rfl
  | e :: rest => by
    rw [unplacedAll, printArgs, printArgs, print_unplaced e, printArgs_unplaced rest]

end

end Expr

def Prototype.unplaced (p : Prototype) : Prototype := { p with location := none }

def Function.unplaced (f : Function) : Function := ⟨f.prototype.unplaced, f.body.unplaced⟩

def Form.unplaced : Form → Form
  | function f => function f.unplaced
  | external p => external p.unplaced

theorem Prototype.print_unplaced (p : Prototype) : p.unplaced.print = p.print := rfl

theorem Function.print_unplaced (f : Function) : f.unplaced.print = f.print := by
  have hbody := f.body.print_unplaced
  have hsignature : f.unplaced.prototype.signature = f.prototype.signature := rfl
  rw [Function.print, Function.print, hsignature]
  exact congrArg (fun text => _ ++ text ++ ")") hbody

/-! ### Stores -/

def Rejection.unplaced (r : Rejection) : Rejection := { r with location := none }

theorem Rejection.diagnostic_unplaced (r : Rejection) :
    r.unplaced.diagnostic = { r.diagnostic with location := none } := by
  obtain ⟨violation, location⟩ := r
  cases violation <;> rfl

def Signatures.unplaced (signatures : Signatures) : Signatures :=
  signatures.mapValues Prototype.unplaced

variable {β : Type}

def Definition.unplaced (d : Definition β) : Definition β :=
  { d with function := d.function.unplaced }

/-- The store without places. -/
def Store.unplaced (s : Store β) : Store β where
  signatures := s.signatures.unplaced
  definitions := s.definitions.mapValues Definition.unplaced
  scope := s.scope.map Prototype.unplaced

def Handle.unplaced : Handle β → Handle β
  | declared requested recorded => declared requested.unplaced recorded.unplaced
  | defined definition => defined definition.unplaced
  | plain name arity => plain name arity

theorem Signatures.resolve_unplaced (signatures : Signatures) (callee : String) (count : Nat)
    (location : Option Location) :
    signatures.unplaced.resolve callee count none =
      match signatures.resolve callee count location with
      | .ok p => .ok p.unplaced
      | .error rejection => .error rejection.unplaced := by
  unfold resolve
  rw [unplaced, Ledger.get?_mapValues]
  cases signatures.get? callee with
  | none => rfl
  | some p =>
    have harity : p.unplaced.arity = p.arity := rfl
    simp only [Option.map_some, harity]
    by_cases h : p.arity = count
    · simp only [h, if_true]
    · simp only [h, if_false]
      rfl

namespace Store

/-- What a store answers without places; `forget` takes those of the handle away. -/
def answerUnplaced {η : Type} (forget : η → η) :
    EStateM.Result Rejection (Store β) (Lowered η) → EStateM.Result Rejection (Store β) (Lowered η)
  | .ok lowered after => .ok (lowered.map forget) after.unplaced
  | .error rejection after => .error rejection.unplaced after.unplaced

theorem isDefined_unplaced (s : Store β) (name : String) :
    s.unplaced.isDefined name = s.isDefined name := by
  simp only [isDefined, unplaced, Ledger.has, Ledger.get?_mapValues, Option.isSome_map]

theorem record_unplaced (s : Store β) (p : Prototype) :
    s.unplaced.record p.unplaced = (s.record p).unplaced := by
  have hanonymous : p.unplaced.isAnonymous = p.isAnonymous := rfl
  unfold record
  rw [hanonymous]
  split
  · rfl
  · simp only [unplaced, Signatures.unplaced, Ledger.put_mapValues]
    rfl

theorem declare_unplaced (p : Prototype) (s : Store β) :
    declare p.unplaced s.unplaced = answerUnplaced Handle.unplaced (declare p s) := by
  have hname : s.unplaced.signatures.get? p.unplaced.name =
      (s.signatures.get? p.name).map Prototype.unplaced := Ledger.get?_mapValues _ _ _
  unfold declare
  rw [hname]
  cases s.signatures.get? p.name with
  | none =>
    simp only [Option.map_none, record_unplaced]
    rfl
  | some known =>
    have harity : known.unplaced.arity = known.arity := rfl
    have hown : p.unplaced.arity = p.arity := rfl
    simp only [Option.map_some, harity, hown]
    by_cases h : known.arity = p.arity
    · simp only [h, if_true]
      rfl
    · simp only [h, if_false]
      rfl

theorem enroll_unplaced (s : Store β) (p : Prototype) :
    s.unplaced.enroll p.unplaced =
      match s.enroll p with
      | .ok enrolled => .ok enrolled.unplaced
      | .error rejection => .error rejection.unplaced := by
  have hanonymous : p.unplaced.isAnonymous = p.isAnonymous := rfl
  have hdefined : s.unplaced.isDefined p.unplaced.name = s.isDefined p.name :=
    isDefined_unplaced s p.name
  have hname : s.unplaced.signatures.get? p.unplaced.name =
      (s.signatures.get? p.name).map Prototype.unplaced := Ledger.get?_mapValues _ _ _
  unfold enroll
  rw [hanonymous, hdefined, hname, record_unplaced]
  split
  · rfl
  · split
    · rfl
    · cases s.signatures.get? p.name with
      | none => rfl
      | some known =>
        have harity : known.unplaced.arity = known.arity := rfl
        have hown : p.unplaced.arity = p.arity := rfl
        simp only [Option.map_some, harity, hown]
        by_cases h : known.arity = p.arity
        · simp only [h, if_true]
        · simp only [h, if_false]
          rfl

theorem withdraw_unplaced (s : Store β) (p : Prototype) (previous : Option Prototype) :
    s.unplaced.withdraw p.unplaced (previous.map Prototype.unplaced) =
      (s.withdraw p previous).unplaced := by
  have hanonymous : p.unplaced.isAnonymous = p.isAnonymous := rfl
  unfold withdraw
  rw [hanonymous]
  split
  · rfl
  · cases previous with
    | none =>
      simp only [Option.map_none, unplaced, Signatures.unplaced, Ledger.erase_mapValues]
      rfl
    | some known =>
      simp only [Option.map_some, unplaced, Signatures.unplaced, Ledger.put_mapValues]
      rfl

theorem keep_unplaced (s : Store β) (d : Definition β) :
    s.unplaced.keep d.unplaced = (s.keep d).unplaced := by
  have hanonymous : d.unplaced.function.prototype.isAnonymous =
      d.function.prototype.isAnonymous := rfl
  unfold keep
  rw [hanonymous]
  split
  · rfl
  · simp only [unplaced, Ledger.put_mapValues]
    rfl

/-- Whatever lowers bodies: if it makes the same of them without places, so does defining. -/
theorem define_unplaced {lower : Signatures → Function → Except Rejection β}
    (hlower : ∀ signatures f, lower (Signatures.unplaced signatures) f.unplaced =
      (lower signatures f).mapError Rejection.unplaced) (f : Function) (s : Store β) :
    define lower f.unplaced s.unplaced = answerUnplaced Definition.unplaced (define lower f s) := by
  have henroll := enroll_unplaced s f.prototype
  have hprototype : f.unplaced.prototype = f.prototype.unplaced := rfl
  unfold define
  rw [hprototype, henroll]
  cases s.enroll f.prototype with
  | error rejection => rfl
  | ok enrolled =>
    have hbody : lower enrolled.unplaced.signatures ⟨f.prototype.unplaced, f.unplaced.body⟩ =
        (lower enrolled.signatures ⟨f.prototype, f.body⟩).mapError Rejection.unplaced :=
      hlower enrolled.signatures f
    have hopened : ({ enrolled.unplaced with scope := some f.prototype.unplaced } : Store β) =
        Store.unplaced { enrolled with scope := some f.prototype } := rfl
    have hname : s.unplaced.signatures.get? f.unplaced.name =
        (s.signatures.get? f.name).map Prototype.unplaced := Ledger.get?_mapValues _ _ _
    simp only [lowerExpr, hbody]
    cases lower enrolled.signatures ⟨f.prototype, f.body⟩ with
    | error rejection =>
      simp only [mapError_error, hname, hopened, withdraw_unplaced]
      rfl
    | ok body =>
      have hkept := keep_unplaced { enrolled with scope := none } ⟨f, body⟩
      simp only [mapError_ok]
      exact congrArg (EStateM.Result.ok _) hkept

end Store
end ScalarLang
