import ScalarLang.Source.Location

/-!
Expressions and the forms that hold them. All values are doubles, so there are no types. Locations
serve messages only: two trees are the same if they differ in nothing else.
-/
namespace ScalarLang

inductive Expr where
  | number (value : Float) (location : Option Location)
  | var (name : String) (location : Option Location)
  | binary (op : String) (lhs rhs : Expr) (location : Option Location)
  | call (callee : String) (args : List Expr) (location : Option Location)
deriving Repr, Inhabited

/-- The name and the parameters of a function. The wrapper of a bare expression has no name. -/
structure Prototype where
  name : String
  params : List String := []
  location : Option Location := none
deriving DecidableEq, Repr, Inhabited

structure Function where
  prototype : Prototype
  body : Expr
deriving Repr, Inhabited

/-- What stands at the top level of a source: a function, or a prototype declared as external. -/
inductive Form where
  | function (f : Function)
  | external (p : Prototype)
deriving Repr, Inhabited

namespace Expr

/-- The use of a name: a call if there are arguments, and else a variable. -/
def reference (name : String) (location : Option Location) : Option (List Expr) → Expr
  | some args => call name args location
  | none => var name location

def location : Expr → Option Location
  | number _ location => location
  | var _ location => location
  | binary _ _ _ location => location
  | call _ _ location => location

def children : Expr → List Expr
  | number _ _ => []
  | var _ _ => []
  | binary _ lhs rhs _ => [lhs, rhs]
  | call _ args _ => args

mutual

/-- Whether two expressions are the same up to locations. Numbers are the same if they are equal, or
if both are values that are not numbers. -/
def same : Expr → Expr → Bool
  | number x _, number y _ => x == y || (x.isNaN && y.isNaN)
  | var x _, var y _ => x == y
  | binary op lhs rhs _, binary op' lhs' rhs' _ => op == op' && same lhs lhs' && same rhs rhs'
  | call callee args _, call callee' args' _ => callee == callee' && sameAll args args'
  | _, _ => false

def sameAll : List Expr → List Expr → Bool
  | [], [] => true
  | a :: as, b :: bs => same a b && sameAll as bs
  | _, _ => false

end

end Expr

namespace Prototype

def arity (p : Prototype) : Nat := p.params.length

def isAnonymous (p : Prototype) : Bool := p.name.isEmpty

def same (p q : Prototype) : Bool := p.name == q.name && p.params == q.params

end Prototype

namespace Function

def name (f : Function) : String := f.prototype.name

/-- Where the function stands: at its prototype, or at its body if that has no place. -/
def location (f : Function) : Option Location := f.prototype.location <|> f.body.location

def same (f g : Function) : Bool := f.prototype.same g.prototype && f.body.same g.body

end Function
end ScalarLang
