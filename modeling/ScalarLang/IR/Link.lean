import ScalarLang.Engine.Store
import ScalarLang.IR.Module

/-!
Linking: the bodies that a module reaches through calls are brought into it, until every declaration
that is left has no definition.
-/
namespace ScalarLang.IR

namespace Module

/-- The declarations of `other` for the symbols in `wanted` that the module does not hold yet. -/
def declareFrom (m other : Module) (wanted : List String) : Module :=
  wanted.foldl (fun m symbol =>
    match m.find? symbol, other.find? symbol with
    | none, some p => { m with procedures := m.procedures ++ [p] }
    | _, _ => m) m

/-- Replaces the declaration of a procedure by its definition in `other`; what that calls is
declared after it. -/
def absorb (m other : Module) (symbol : String) : Module :=
  match other.find? symbol with
  | none => m
  | some p =>
    let rest := m.procedures.filter fun q => q.symbol != symbol
    declareFrom { m with procedures := rest ++ [p] } other p.callees

/-- The declarations that have a definition and are not linked yet. -/
def pending (m : Module) (definitions : Ledger String (Definition Module)) (linked : List String) :
    List String :=
  (m.procedures.filter fun p =>
    p.isDeclaration && definitions.has p.symbol && !linked.contains p.symbol).map (·.symbol)

def absorbAll (m : Module) (definitions : Ledger String (Definition Module))
    (symbols : List String) : Module :=
  symbols.foldl (fun m symbol =>
    match definitions.get? symbol with
    | some definition => m.absorb definition.body symbol
    | none => m) m

/-- Links round by round; each round brings in what the one before declared. The symbols that are
linked so far are `linked`. -/
def linkRounds (definitions : Ledger String (Definition Module)) :
    Nat → List String → Module → List String × Module
  | 0, linked, m => (linked, m)
  | fuel + 1, linked, m =>
    match m.pending definitions linked with
    | [] => (linked, m)
    | symbols => linkRounds definitions fuel (linked ++ symbols) (m.absorbAll definitions symbols)

/-- The module with all definitions that it reaches, after their symbols. Every round links a
definition for the first time. -/
def linkAll (m : Module) (definitions : Ledger String (Definition Module)) :
    List String × Module :=
  linkRounds definitions (definitions.length + 1) [m.name] m

def link (m : Module) (definitions : Ledger String (Definition Module)) : Module :=
  (m.linkAll definitions).2

/-- The symbols of the definitions that a module reaches, without its own, in order of text. -/
def reached (m : Module) (definitions : Ledger String (Definition Module)) : List String :=
  ((m.linkAll definitions).1.filter (· != m.name)).mergeSort fun a b => decide (a ≤ b)

/-- The first declaration that is not present outside. -/
def unresolvedIn (present : String → Bool) (m : Module) : Option String :=
  (m.procedures.find? fun p => p.isDeclaration && !present p.symbol).map Procedure.symbol

end Module
end ScalarLang.IR
