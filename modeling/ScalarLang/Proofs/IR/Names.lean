import ScalarLang.IR.Lower
import ScalarLang.Proofs.Parse.Reached

/-!
# Names in a procedure

A name that is picked is never in use, and names stay in use. Names with a number and the empty ones
that parameters hold at first contain a point, so words keep out of their way: parameters that are
words and differ from each other get the names that they ask for.
-/
namespace ScalarLang.IR

namespace Names

theorem toList_numbered (base : String) (n : Nat) :
    (numbered base n).toList = base.toList ++ '.' :: Nat.toDigits 10 n := by
  have hparts : numbered base n = base ++ "." ++ Nat.repr n := rfl
  rw [hparts]
  simp

theorem numbered_injective {base : String} {m n : Nat} (h : numbered base m = numbered base n) :
    m = n := by
  have htext := congrArg String.toList h
  rw [toList_numbered, toList_numbered] at htext
  have hdigits := (List.cons.inj (List.append_cancel_left htext)).2
  have hvalue := congrArg (fun digits => Nat.ofDigitChars 10 digits 0) hdigits
  simpa using hvalue

theorem lt_firstFree (base : String) (fuel : Nat) (taken : List String) (n : Nat) :
    n < firstFree base fuel taken n := by
  induction fuel generalizing taken n with
  | zero =>
    rw [firstFree]
    omega
  | succ fuel ih =>
    rw [firstFree]
    split
    · have hlater := ih (taken.erase (numbered base (n + 1))) (n + 1)
      omega
    · omega

theorem firstFree_not_mem {base : String} {fuel : Nat} {taken : List String} (n : Nat)
    (hfuel : taken.length ≤ fuel) : numbered base (firstFree base fuel taken n) ∉ taken := by
  induction fuel generalizing taken n with
  | zero =>
    have hnil : taken = [] := List.length_eq_zero_iff.1 (by omega)
    rw [hnil]
    simp
  | succ fuel ih =>
    rw [firstFree]
    split
    · next hmem =>
      have hshorter : (taken.erase (numbered base (n + 1))).length ≤ fuel := by
        rw [List.length_erase_of_mem hmem]
        omega
      have hfree := ih (n + 1) hshorter
      have hlater := lt_firstFree base fuel (taken.erase (numbered base (n + 1))) (n + 1)
      -- The struck name has a smaller number than the one that is found.
      have hne : numbered base (firstFree base fuel (taken.erase (numbered base (n + 1))) (n + 1)) ≠
          numbered base (n + 1) := by
        intro heq
        have hnumber := numbered_injective heq
        omega
      intro hin
      exact hfree ((List.mem_erase_of_ne hne).2 hin)
    · next hmem => exact hmem

theorem pick_not_mem (names : Names) (base : String) : (names.pick base).1 ∉ names.used := by
  unfold pick
  split
  · exact firstFree_not_mem _ (le_refl _)
  · next h => exact h

@[simp] theorem used_pick (names : Names) (base : String) :
    (names.pick base).2.used = (names.pick base).1 :: names.used := by
  unfold pick
  split
  · rfl
  · rfl

theorem pick_of_not_mem {names : Names} {base : String} (h : base ∉ names.used) :
    names.pick base = (base, { names with used := base :: names.used }) := by
  rw [pick, if_neg h]

/-! ### Several names -/

theorem pickAll_of_not_mem {bases : List String} {names : Names} (hdistinct : bases.Nodup)
    (h : ∀ base ∈ bases, base ∉ names.used) :
    names.pickAll bases = (bases, { names with used := bases.reverse ++ names.used }) := by
  induction bases generalizing names with
  | nil => rfl
  | cons base rest ih =>
    have hbase : base ∉ names.used := h base (List.mem_cons_self ..)
    have hrest : ∀ other ∈ rest, other ∉ base :: names.used := by
      intro other hother hin
      rcases List.mem_cons.1 hin with rfl | hin
      · exact (List.nodup_cons.1 hdistinct).1 hother
      · exact h other (List.mem_cons_of_mem _ hother) hin
    have htail : pickAll { names with used := base :: names.used } rest =
        (rest, ⟨rest.reverse ++ base :: names.used, names.numbers⟩) :=
      ih (List.nodup_cons.1 hdistinct).2 hrest
    rw [pickAll, pick_of_not_mem hbase]
    simp only [htail, List.reverse_cons, List.append_assoc, List.singleton_append]

/-- A text that no word can be: it is empty, or holds a point. -/
def Reserved (name : String) : Prop := name = "" ∨ '.' ∈ name.toList

theorem not_reserved_of_isWord {name : String} (h : IsWord name) : ¬ Reserved name := by
  rintro (hempty | hpoint)
  · exact h.1 hempty
  · exact absurd (h.2 '.' hpoint) (by decide)

theorem reserved_numbered (base : String) (n : Nat) : Reserved (numbered base n) := by
  right
  rw [toList_numbered]
  simp

theorem reserved_pickAll (count : Nat) {names : Names} (hempty : "" ∈ names.used)
    (h : ∀ name ∈ names.used, Reserved name) :
    ∀ name ∈ (names.pickAll (List.replicate count "")).2.used, Reserved name := by
  induction count generalizing names with
  | zero => exact h
  | succ count ih =>
    rw [List.replicate_succ, pickAll]
    refine ih ?_ ?_
    · rw [used_pick]
      exact List.mem_cons_of_mem _ hempty
    · intro name hname
      rw [used_pick] at hname
      rcases List.mem_cons.1 hname with rfl | hname
      · rw [pick, if_pos hempty]
        exact reserved_numbered _ _
      · exact h name hname

end Names

/-! ### Plain names -/

/-- A name of letters, digits, points and underscores. -/
def IsPlain (name : String) : Prop := ∀ c ∈ name.toList, c.isAlphanum = true ∨ c = '.' ∨ c = '_'

theorem isPlain_of_isWord {name : String} (h : IsWord name) : IsPlain name :=
  fun c hc => Or.inl (h.2 c hc)

/-- A number that is put behind a word makes it a plain name. -/
theorem isPlain_pick (names : Names) {base : String} (h : IsWord base) :
    IsPlain (names.pick base).1 := by
  unfold Names.pick
  split
  · intro c hc
    rw [Names.toList_numbered, List.mem_append, List.mem_cons] at hc
    rcases hc with hc | rfl | hc
    · exact isPlain_of_isWord h c hc
    · exact Or.inr (Or.inl rfl)
    · have hdigit := Nat.isDigit_of_mem_toDigits (by decide) (by decide) hc
      left
      simp [Char.isAlphanum, hdigit]
  · exact isPlain_of_isWord h

/-- Parameters as they can be read keep their names, and these are in use. -/
theorem paramNames_eq {params : List String} (hdistinct : params.Nodup)
    (hwords : ∀ param ∈ params, IsWord param) :
    ∃ names, paramNames params = (params, names) ∧ ∀ param ∈ params, param ∈ names.used := by
  have hstart : ∀ name ∈ Names.start.used, Names.Reserved name := by
    simp [Names.start, Names.Reserved]
  have hreserved := Names.reserved_pickAll (params.length + 1) (List.mem_cons_self ..) hstart
  have hfree : ∀ param ∈ params,
      param ∉ (Names.start.pickAll (List.replicate (params.length + 1) "")).2.used :=
    fun param hparam hin => Names.not_reserved_of_isWord (hwords param hparam) (hreserved param hin)
  refine ⟨_, Names.pickAll_of_not_mem hdistinct hfree, fun param hparam => ?_⟩
  exact List.mem_append_left _ (List.mem_reverse.2 hparam)

end ScalarLang.IR
