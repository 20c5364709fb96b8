import ScalarLang.Ledger

/-!
Unique names. A name that is taken gets a number, counted for each name on its own.
-/
namespace ScalarLang.IR

/-- The names in use, and the last number given to each name. -/
structure Names where
  used : List String
  numbers : Ledger String Nat
deriving Repr

namespace Names

/-- No names yet; the empty name cannot be used. -/
def start : Names := ⟨[""], []⟩

def numbered (base : String) (n : Nat) : String := s!"{base}.{n}"

/-- The first number after `n` whose name is not among `taken`. Every collision strikes one of the
taken names, so there are no more of them than names. -/
def firstFree (base : String) : Nat → List String → Nat → Nat
  | 0, _, n => n + 1
  | fuel + 1, taken, n =>
    let candidate := numbered base (n + 1)
    if candidate ∈ taken then firstFree base fuel (taken.erase candidate) (n + 1) else n + 1

/-- A name for `base` that is not in use, and the names with it. -/
def pick (names : Names) (base : String) : String × Names :=
  if base ∈ names.used then
    let n := firstFree base names.used.length names.used ((names.numbers.get? base).getD 0)
    (numbered base n, ⟨numbered base n :: names.used, names.numbers.put base n⟩)
  else (base, { names with used := base :: names.used })

def pickAll : Names → List String → List String × Names
  | names, [] => ([], names)
  | names, base :: rest =>
    let (name, names) := names.pick base
    let (others, names) := names.pickAll rest
    (name :: others, names)

end Names
end ScalarLang.IR
