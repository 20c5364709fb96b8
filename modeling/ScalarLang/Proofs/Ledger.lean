import Mathlib.Data.List.Induction
import ScalarLang.Ledger

/-!
# Ledgers after many entries

What many entries, one after the other, leave in a ledger: which keys in which order, and which
values.
-/
namespace ScalarLang

namespace Ledger

variable {κ α : Type}

/-- Gives keys values, one after the other. -/
def putAll [BEq κ] (ledger : Ledger κ α) (entries : List (κ × α)) : Ledger κ α :=
  entries.foldl (fun ledger entry => ledger.put entry.1 entry.2) ledger

theorem put_of_new [BEq κ] {ledger : Ledger κ α} {key : κ} (value : α)
    (h : ∀ entry ∈ ledger, (key == entry.1) = false) :
    ledger.put key value = ledger ++ [(key, value)] := by
  induction ledger with
  | nil => rfl
  | cons entry rest ih =>
    obtain ⟨hfirst, hrest⟩ := List.forall_mem_cons.1 h
    rw [put, hfirst, if_neg Bool.false_ne_true, ih hrest, List.cons_append]

def Distinct [BEq κ] (ledger : Ledger κ α) : Prop :=
  ledger.Pairwise fun entry later => (later.1 == entry.1) = false

/-- Every entry after a put has a key from before or the new one. -/
theorem put_keys [BEq κ] {ledger : Ledger κ α} {key : κ} {value : α} {entry : κ × α}
    (h : entry ∈ ledger.put key value) :
    (∃ old ∈ ledger, old.1 = entry.1) ∨
      entry = (key, value) ∧ ∀ old ∈ ledger, (key == old.1) = false := by
  induction ledger with
  | nil => exact Or.inr ⟨List.mem_singleton.1 h, List.forall_mem_nil _⟩
  | cons first rest ih =>
    obtain ⟨own, old⟩ := first
    rw [put] at h
    split at h
    · rcases List.mem_cons.1 h with rfl | hrest
      · exact Or.inl ⟨_, List.mem_cons_self .., rfl⟩
      · exact Or.inl ⟨entry, List.mem_cons_of_mem _ hrest, rfl⟩
    · next hne =>
      rcases List.mem_cons.1 h with rfl | hrest
      · exact Or.inl ⟨_, List.mem_cons_self .., rfl⟩
      · rcases ih hrest with ⟨known, hmem, hkey⟩ | ⟨hnew, hall⟩
        · exact Or.inl ⟨known, List.mem_cons_of_mem _ hmem, hkey⟩
        · exact Or.inr ⟨hnew, List.forall_mem_cons.2 ⟨by simpa using hne, hall⟩⟩

theorem Distinct.put [BEq κ] {ledger : Ledger κ α} (h : ledger.Distinct) (key : κ) (value : α) :
    (ledger.put key value).Distinct := by
  induction ledger with
  | nil => exact List.pairwise_singleton _ _
  | cons first rest ih =>
    obtain ⟨own, old⟩ := first
    obtain ⟨hfirst, hrest⟩ := List.pairwise_cons.1 h
    rw [Ledger.put]
    split
    · exact List.pairwise_cons.2 ⟨hfirst, hrest⟩
    · next hne =>
      refine List.pairwise_cons.2 ⟨fun entry hentry => ?_, ih hrest⟩
      rcases put_keys hentry with ⟨known, hmem, hkey⟩ | ⟨rfl, _⟩
      · rw [← hkey]
        exact hfirst known hmem
      · simpa using hne

theorem Distinct.putAll [BEq κ] {ledger : Ledger κ α} (h : ledger.Distinct)
    (entries : List (κ × α)) : (ledger.putAll entries).Distinct := by
  induction entries generalizing ledger with
  | nil => exact h
  | cons entry rest ih => exact ih (h.put entry.1 entry.2)

/-! ### Keys that are lawful -/

section LawfulKeys

variable [BEq κ] [LawfulBEq κ]

omit [LawfulBEq κ] in
theorem putAll_append (ledger : Ledger κ α) (entries : List (κ × α)) (entry : κ × α) :
    ledger.putAll (entries ++ [entry]) = (ledger.putAll entries).put entry.1 entry.2 := by
  rw [putAll, List.foldl_append]
  rfl

/-- A key has the value that it was given last, or else its old one. -/
theorem get?_putAll (ledger : Ledger κ α) (entries : List (κ × α)) (key : κ) :
    (ledger.putAll entries).get? key = (entries.reverse.lookup key).or (ledger.get? key) := by
  induction entries using List.reverseRecOn with
  | nil => rfl
  | append_singleton entries entry ih =>
    obtain ⟨own, value⟩ := entry
    rw [putAll_append, List.reverse_append]
    by_cases hkey : key = own
    · subst hkey
      simp
    · have hother : (key == own) = false := by simpa using hkey
      rw [get?_put_of_ne _ _ hkey, ih]
      simp [List.lookup_cons, hother]

theorem removeAll_append_one (known keys : List κ) (key : κ) :
    (keys ++ [key]).removeAll known =
      keys.removeAll known ++ if key ∈ known then [] else [key] := by
  by_cases h : key ∈ known
  · simp [List.removeAll, h]
  · simp [List.removeAll, h]

/-- Known keys keep their places, and new ones come behind them in the order of their first
entries. -/
theorem keys_putAll (ledger : Ledger κ α) (entries : List (κ × α)) :
    (ledger.putAll entries).keys =
      ledger.keys ++ ((entries.map (·.1)).removeAll ledger.keys).eraseDups := by
  induction entries using List.reverseRecOn with
  | nil => simp [putAll]
  | append_singleton entries entry ih =>
    obtain ⟨own, value⟩ := entry
    rw [putAll_append, keys_put, ih, List.map_append, List.map_singleton, removeAll_append_one]
    generalize (entries.map (·.1)).removeAll ledger.keys = fresh
    by_cases hold : own ∈ ledger.keys
    · simp [hold]
    · rw [if_neg hold, List.eraseDups_append]
      by_cases hnew : own ∈ fresh
      · simp [List.removeAll, hnew]
      · simp [List.removeAll, hnew, hold, List.eraseDups_cons]

end LawfulKeys

end Ledger
end ScalarLang
