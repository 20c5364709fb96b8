/-!
# Texts in parentheses

Trees of atoms, where a row of them is written in parentheses with a blank between its members. As
long as no atom contains a blank or a parenthesis, such a text can be read in one way only.
-/
namespace ScalarLang

/-- An atom, or a row in parentheses. -/
inductive Bracketed where
  | atom (text : List Char)
  | row (items : List Bracketed)

namespace Bracketed

def ofString (text : String) : Bracketed := .atom text.toList

theorem ofString_injective : Function.Injective ofString := fun _ _ h =>
  String.toList_injective (atom.inj h)

mutual

def write : Bracketed → List Char
  | atom text => text
  | row [] => ['(', ')']
  | row (first :: rest) => '(' :: (write first ++ writeRest rest)

/-- The members after the first, with the parenthesis that closes the row. -/
def writeRest : List Bracketed → List Char
  | [] => [')']
  | item :: rest => ' ' :: (write item ++ writeRest rest)

end

/-- The characters that end an atom. -/
def separators : List Char := [' ', '(', ')']

/-- The characters that an atom goes on over. -/
def isInner (c : Char) : Bool := !separators.contains c

/-- A text that no atom goes on into. -/
def Breaks (rest : List Char) : Prop := ∀ c ∈ rest.head?, isInner c = false

/-- A text that can be an atom: there is something, and no separator. -/
structure Undivided (text : List Char) : Prop where
  ne_nil : text ≠ []
  inner : ∀ c ∈ text, isInner c = true

/-- All atoms of a tree can be told apart from what is around them. -/
inductive WellFormed : Bracketed → Prop
  | atom {text : List Char} (h : Undivided text) : WellFormed (atom text)
  | row {items : List Bracketed} (h : ∀ item ∈ items, WellFormed item) : WellFormed (row items)

theorem WellFormed.undivided {text : List Char} (h : WellFormed (.atom text)) : Undivided text := by
  cases h with
  | atom h => exact h

theorem WellFormed.items {items : List Bracketed} (h : WellFormed (.row items)) :
    ∀ item ∈ items, WellFormed item := by
  cases h with
  | row h => exact h

theorem WellFormed.nil : WellFormed (.row []) := .row (by simp)

theorem WellFormed.cons {first : Bracketed} {rest : List Bracketed} (h : first.WellFormed)
    (hrest : WellFormed (.row rest)) : WellFormed (.row (first :: rest)) := by
  refine .row fun item hitem => ?_
  rcases List.mem_cons.1 hitem with rfl | hitem
  · exact h
  · exact hrest.items item hitem

/-- Atoms go on over every class of characters that no separator is in. -/
theorem isInner_of_class {p : Char → Bool} (hp : separators.any p = false) {c : Char}
    (h : p c = true) : isInner c = true := by
  rw [isInner, Bool.not_eq_true', List.contains_eq_mem, decide_eq_false_iff_not]
  intro hmem
  exact List.any_eq_false.1 hp c hmem h

/-! ### How a text begins -/

section Beginnings

variable {text rest rest' : List Char} {items : List Bracketed}

theorem write_row_nil (rest : List Char) : write (row []) ++ rest = '(' :: ')' :: rest := rfl

theorem write_row_cons (first : Bracketed) (items : List Bracketed) (rest : List Char) :
    write (row (first :: items)) ++ rest = '(' :: (write first ++ (writeRest items ++ rest)) := by
  rw [write, List.cons_append, List.append_assoc]

theorem writeRest_cons_append (item : Bracketed) (items : List Bracketed) (rest : List Char) :
    writeRest (item :: items) ++ rest = ' ' :: (write item ++ (writeRest items ++ rest)) := by
  rw [writeRest, List.cons_append, List.append_assoc]

theorem breaks_writeRest (items : List Bracketed) (rest : List Char) :
    Breaks (writeRest items ++ rest) := by
  intro c hc
  cases items with
  | nil =>
    cases hc
    rfl
  | cons item items =>
    cases hc
    rfl

/-- An atom ends where it does not go on. -/
theorem takeWhile_atom (h : Undivided text) (hrest : Breaks rest) :
    (text ++ rest).takeWhile isInner = text := by
  rw [List.takeWhile_append_of_pos h.inner]
  cases rest with
  | nil => rw [List.takeWhile_nil, List.append_nil]
  | cons c rest =>
    have hbreak : ¬ isInner c = true := by rw [hrest c rfl]; decide
    rw [List.takeWhile_cons_of_neg hbreak, List.append_nil]

theorem isInner_of_atom (h : Undivided text) {c : Char} (heq : text ++ rest = c :: rest') :
    isInner c = true := by
  obtain ⟨x, tail, rfl⟩ := List.exists_cons_of_ne_nil h.ne_nil
  obtain ⟨rfl, _⟩ := List.cons.inj heq
  exact h.inner x List.mem_cons_self

/-- No atom starts like a row. -/
theorem atom_ne_row (h : Undivided text) : text ++ rest ≠ write (row items) ++ rest' := by
  intro heq
  cases items with
  | nil =>
    have hopen := isInner_of_atom h heq
    cases hopen
  | cons first items =>
    have hopen := isInner_of_atom h heq
    cases hopen

/-- Nothing that is written starts with the end of a row. -/
theorem write_ne_close {t : Bracketed} (h : t.WellFormed) : write t ++ rest ≠ ')' :: rest' := by
  intro heq
  cases h with
  | atom hatom =>
    have hclose := isInner_of_atom hatom heq
    cases hclose
  | @row items hitems =>
    cases items with
    | nil => cases heq
    | cons first items => cases heq

end Beginnings

/-! ### Texts are read in one way -/

mutual

theorem write_append_inj : ∀ {t u : Bracketed} {rest rest' : List Char}, t.WellFormed →
    u.WellFormed → Breaks rest → Breaks rest' → write t ++ rest = write u ++ rest' →
    t = u ∧ rest = rest'
  | atom text, atom text', rest, rest', ht, hu, hrest, hrest', h => by
    have hsame : text = text' := by
      rw [← takeWhile_atom ht.undivided hrest, ← takeWhile_atom hu.undivided hrest']
      exact congrArg _ h
    subst hsame
    exact ⟨rfl, List.append_cancel_left h⟩
  | atom _, row _, _, _, ht, _, _, _, h => absurd h (atom_ne_row ht.undivided)
  | row _, atom _, _, _, _, hu, _, _, h => absurd h.symm (atom_ne_row hu.undivided)
  | row [], row [], _, _, _, _, _, _, h => ⟨rfl, List.append_cancel_left h⟩
  | row [], row (first :: items), rest, rest', _, hu, _, _, h => by
    rw [write_row_nil, write_row_cons] at h
    exact absurd (List.cons.inj h).2.symm (write_ne_close (hu.items first List.mem_cons_self))
  | row (first :: items), row [], rest, rest', ht, _, _, _, h => by
    rw [write_row_nil, write_row_cons] at h
    exact absurd (List.cons.inj h).2 (write_ne_close (ht.items first List.mem_cons_self))
  | row (first :: items), row (first' :: items'), rest, rest', ht, hu, _, _, h => by
    rw [write_row_cons, write_row_cons] at h
    obtain ⟨rfl, htail⟩ := write_append_inj (ht.items first List.mem_cons_self)
      (hu.items first' List.mem_cons_self) (breaks_writeRest _ _) (breaks_writeRest _ _)
      (List.cons.inj h).2
    obtain ⟨rfl, hrest⟩ := writeRest_append_inj
      (fun item hitem => ht.items item (List.mem_cons_of_mem _ hitem))
      (fun item hitem => hu.items item (List.mem_cons_of_mem _ hitem)) htail
    exact ⟨rfl, hrest⟩

theorem writeRest_append_inj : ∀ {ts us : List Bracketed} {rest rest' : List Char},
    (∀ t ∈ ts, t.WellFormed) → (∀ u ∈ us, u.WellFormed) →
    writeRest ts ++ rest = writeRest us ++ rest' → ts = us ∧ rest = rest'
  | [], [], _, _, _, _, h => ⟨rfl, List.append_cancel_left h⟩
  | [], _ :: _, _, _, _, _, h => by cases h
  | _ :: _, [], _, _, _, _, h => by cases h
  | item :: ts, item' :: us, rest, rest', ht, hu, h => by
    rw [writeRest_cons_append, writeRest_cons_append] at h
    obtain ⟨rfl, htail⟩ := write_append_inj (ht item List.mem_cons_self)
      (hu item' List.mem_cons_self) (breaks_writeRest _ _) (breaks_writeRest _ _)
      (List.cons.inj h).2
    obtain ⟨rfl, hrest⟩ := writeRest_append_inj
      (fun t hmem => ht t (List.mem_cons_of_mem _ hmem))
      (fun u hmem => hu u (List.mem_cons_of_mem _ hmem)) htail
    exact ⟨rfl, hrest⟩

end

/-- Trees with the same text are the same. -/
theorem eq_of_write_eq {t u : Bracketed} (ht : t.WellFormed) (hu : u.WellFormed)
    (h : write t = write u) : t = u := by
  have hnil : Breaks [] := by
    intro c hc
    cases hc
  have happend : write t ++ [] = write u ++ [] := by rw [h]
  exact (write_append_inj ht hu hnil hnil happend).1

end Bracketed
end ScalarLang
