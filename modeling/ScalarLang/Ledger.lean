/-!
Ledgers: finite maps that remember the order in which their keys came in. A new value for a known
key takes the old one's place.
-/
namespace ScalarLang

/-- A finite map in order of first insertion. -/
abbrev Ledger (κ α : Type) := List (κ × α)

namespace Ledger

variable {κ α : Type} [BEq κ]

def get? (ledger : Ledger κ α) (key : κ) : Option α := ledger.lookup key

def has (ledger : Ledger κ α) (key : κ) : Bool := (ledger.get? key).isSome

/-- Gives a key a value: in place if the key is known, else at the end. -/
def put : Ledger κ α → κ → α → Ledger κ α
  | [], key, value => [(key, value)]
  | (own, old) :: rest, key, value =>
    if key == own then (own, value) :: rest else (own, old) :: put rest key value

def erase : Ledger κ α → κ → Ledger κ α
  | [], _ => []
  | (own, value) :: rest, key =>
    if key == own then rest else (own, value) :: erase rest key

/-- The keys in order of insertion. -/
def keys (ledger : Ledger κ α) : List κ := ledger.map (·.1)

@[simp] theorem get?_nil (key : κ) : get? ([] : Ledger κ α) key = none := rfl

theorem get?_cons (own : κ) (value : α) (rest : Ledger κ α) (key : κ) :
    get? ((own, value) :: rest) key = if key == own then some value else get? rest key := by
  simp only [get?, List.lookup_cons]
  split <;> simp_all

section LawfulKeys

variable [LawfulBEq κ]

@[simp] theorem get?_put_self (ledger : Ledger κ α) (key : κ) (value : α) :
    get? (put ledger key value) key = some value := by
  induction ledger with
  | nil => simp [put, get?_cons]
  | cons entry rest ih =>
    obtain ⟨own, old⟩ := entry
    by_cases h : key = own <;> simp [put, get?_cons, h, ih]

theorem get?_put_of_ne (ledger : Ledger κ α) {key other : κ} (value : α) (h : other ≠ key) :
    get? (put ledger key value) other = get? ledger other := by
  induction ledger with
  | nil => simp [put, get?_cons, h]
  | cons entry rest ih =>
    obtain ⟨own, old⟩ := entry
    by_cases hk : key = own
    · subst hk
      simp [put, get?_cons, h]
    · simp [put, get?_cons, hk, ih]

theorem get?_put_cases {ledger : Ledger κ α} {key other : κ} {value found : α}
    (h : get? (put ledger key value) other = some found) :
    (other = key ∧ found = value) ∨ get? ledger other = some found := by
  by_cases hkey : other = key
  · subst hkey
    rw [get?_put_self] at h
    exact Or.inl ⟨rfl, (Option.some.inj h).symm⟩
  · rw [get?_put_of_ne ledger value hkey] at h
    exact Or.inr h

theorem mem_keys_of_get? {ledger : Ledger κ α} {key : κ} {value : α}
    (h : get? ledger key = some value) : key ∈ keys ledger := by
  induction ledger with
  | nil => simp at h
  | cons entry rest ih =>
    obtain ⟨own, old⟩ := entry
    by_cases hk : key = own
    · simp [keys, hk]
    · have hrest : get? rest key = some value := by simpa [get?_cons, hk] using h
      exact List.mem_cons_of_mem _ (ih hrest)

/-- A known key keeps its place and a new one comes last. -/
theorem keys_put (ledger : Ledger κ α) (key : κ) (value : α) :
    keys (put ledger key value) =
      if key ∈ keys ledger then keys ledger else keys ledger ++ [key] := by
  induction ledger with
  | nil => simp [put, keys]
  | cons entry rest ih =>
    obtain ⟨own, old⟩ := entry
    by_cases hk : key = own
    · subst hk
      simp [put, keys]
    · have step : keys (put ((own, old) :: rest) key value) = own :: keys (put rest key value) := by
        simp [put, keys, hk]
      rw [step, ih]
      have mem : key ∈ keys ((own, old) :: rest) ↔ key ∈ keys rest := by simp [keys, hk]
      by_cases hm : key ∈ keys rest
      · rw [if_pos hm, if_pos (mem.2 hm)]
        rfl
      · rw [if_neg hm, if_neg (fun h => hm (mem.1 h))]
        rfl

/-- Removing a key that was new takes it back. -/
theorem erase_put_of_new (ledger : Ledger κ α) {key : κ} (value : α)
    (h : get? ledger key = none) : erase (put ledger key value) key = ledger := by
  induction ledger with
  | nil => simp [put, erase]
  | cons entry rest ih =>
    obtain ⟨own, old⟩ := entry
    by_cases hk : key = own
    · simp [get?_cons, hk] at h
    · have hrest : get? rest key = none := by simpa [get?_cons, hk] using h
      simp [put, erase, hk, ih hrest]

/-- Giving a known key its old value takes a new one back. -/
theorem put_put_of_known (ledger : Ledger κ α) {key : κ} {old : α} (value : α)
    (h : get? ledger key = some old) : put (put ledger key value) key old = ledger := by
  induction ledger with
  | nil => simp at h
  | cons entry rest ih =>
    obtain ⟨own, first⟩ := entry
    by_cases hk : key = own
    · have hold : first = old := by simpa [get?_cons, hk] using h
      simp [put, hk, hold]
    · have hrest : get? rest key = some old := by simpa [get?_cons, hk] using h
      simp [put, hk, ih hrest]

end LawfulKeys

end Ledger
end ScalarLang
