import ScalarLang.Engine.Trap
import ScalarLang.Ledger
import ScalarLang.Syntax.Expr

/-!
What an engine knows: the signature of every declared function and the body of every defined one.
A function can be called in its own body, so it is enrolled before that is lowered, and a declared
function can get its body later. A form that is rejected leaves the store as it was: what was
enrolled for it is withdrawn again.
-/
namespace ScalarLang

/-- The prototypes of the declared functions. -/
abbrev Signatures := Ledger String Prototype

/-- A function together with what it was lowered to. -/
structure Definition (β : Type) where
  function : Function
  body : β
deriving Repr

/-- The declared and the defined functions. While the body of a function is lowered, its prototype
is the scope. -/
structure Store (β : Type) where
  signatures : Signatures := []
  definitions : Ledger String (Definition β) := []
  scope : Option Prototype := none
deriving Repr

/-- A lowered form. For a declaration, `recorded` is the prototype that was declared first; a plain
handle only names a function and claims a number of parameters. -/
inductive Handle (β : Type) where
  | declared (requested recorded : Prototype)
  | defined (definition : Definition β)
  | plain (name : String) (arity : Int)
deriving Repr

/-- What lowering a form yields: a handle, and what is logged. -/
structure Lowered (η : Type) where
  handle : η
  log : List String

def Lowered.map {η θ : Type} (f : η → θ) (l : Lowered η) : Lowered θ := ⟨f l.handle, l.log⟩

/-- An engine over stores `σ` and handles `η`: it declares prototypes, defines functions, and runs
what it has lowered; `trace` is what it logs when it runs. What a request changed in the store stays
changed when the request fails, unless it takes the change back. -/
structure Engine (σ η : Type) where
  logger : String
  declare : Prototype → EStateM Rejection σ (Lowered η)
  define : Function → EStateM Rejection σ (Lowered η)
  execute : η → EStateM Trap σ Float
  trace : σ → η → List String
  describe : η → String

namespace Handle

variable {β : Type}

def name : Handle β → String
  | declared requested _ => requested.name
  | defined definition => definition.function.name
  | plain name _ => name

def arity : Handle β → Int
  | declared requested _ => requested.arity
  | defined definition => definition.function.prototype.arity
  | plain _ arity => arity

def describePlain (name : String) (arity : Int) : String :=
  (if name.isEmpty then "<anon>" else name) ++ s!"/{arity}"

end Handle

namespace Signatures

/-- Checks that a call names a declared function and passes as many arguments as it takes. -/
def resolve (signatures : Signatures) (callee : String) (count : Nat)
    (location : Option Location) : Except Rejection Prototype :=
  match signatures.get? callee with
  | none => .error ⟨.unknownFunction callee, location⟩
  | some p =>
    if p.arity = count then .ok p else .error ⟨.argumentCount callee p.arity count, location⟩

end Signatures

namespace Store

variable {β : Type}

def isDefined (s : Store β) (name : String) : Bool := s.definitions.has name

def isDeclared (s : Store β) (name : String) : Bool := s.signatures.has name

/-- Records the prototype of a function; the wrapper of a bare expression is not recorded. -/
def record (s : Store β) (p : Prototype) : Store β :=
  if p.isAnonymous then s else { s with signatures := s.signatures.put p.name p }

/-- Declares a function. Declaring it again changes nothing, but the number of parameters must be
the same. -/
def declare (p : Prototype) : EStateM Rejection (Store β) (Lowered (Handle β)) := fun s =>
  match s.signatures.get? p.name with
  | some known =>
    if known.arity = p.arity then .ok ⟨.declared p known, []⟩ s
    else .error ⟨.conflict p.name known.arity p.arity, p.location⟩ s
  | none =>
    let log := if p.isAnonymous then [] else [s!"declared {p.name}/{p.arity}"]
    .ok ⟨.declared p p, log⟩ (s.record p)

/-- Records the prototype of a function that is to be defined, so that its body can call it. It must
not have a body yet, nor another number of parameters. -/
def enroll (s : Store β) (p : Prototype) : Except Rejection (Store β) :=
  if p.isAnonymous then .ok s
  else if s.isDefined p.name then .error ⟨.redefinition p.name, p.location⟩
  else
    match s.signatures.get? p.name with
    | some known =>
      if known.arity = p.arity then .ok (s.record p)
      else .error ⟨.conflict p.name known.arity p.arity, p.location⟩
    | none => .ok (s.record p)

/-- Takes back what was recorded for a prototype; `previous` is what stood there before. -/
def withdraw (s : Store β) (p : Prototype) (previous : Option Prototype) : Store β :=
  if p.isAnonymous then s
  else
    match previous with
    | some known => { s with signatures := s.signatures.put p.name known }
    | none => { s with signatures := s.signatures.erase p.name }

/-- Lowers an expression as the body of the function whose scope is open. -/
def lowerExpr (lower : Signatures → Function → Except Rejection β) (s : Store β) (e : Expr) :
    Except Rejection β :=
  match s.scope with
  | some p => lower s.signatures ⟨p, e⟩
  | none => .error ⟨.noScope, none⟩

/-- Keeps a definition if its function has a name. -/
def keep (s : Store β) (d : Definition β) : Store β :=
  if d.function.prototype.isAnonymous then s
  else { s with definitions := s.definitions.put d.function.name d }

/-- Lowers a function and keeps it if it has a name. Its scope is open only meanwhile. -/
def define (lower : Signatures → Function → Except Rejection β) (f : Function) :
    EStateM Rejection (Store β) (Lowered (Definition β)) := fun s =>
  match s.enroll f.prototype with
  | .error rejection => .error rejection s
  | .ok enrolled =>
    let opened := { enrolled with scope := some f.prototype }
    match opened.lowerExpr lower f.body with
    | .error rejection =>
      let restored := opened.withdraw f.prototype (s.signatures.get? f.name)
      .error rejection { restored with scope := none }
    | .ok body =>
      let log :=
        if f.prototype.isAnonymous then [] else [s!"defined {f.name}/{f.prototype.arity}"]
      .ok ⟨⟨f, body⟩, log⟩ ({ opened with scope := none }.keep ⟨f, body⟩)

end Store
end ScalarLang
