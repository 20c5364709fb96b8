import ScalarLang.Operator.Table
import ScalarLang.Proofs.Outcome

/-!
# Installed operators

The tables that can be built, and which tokens are operators of one. The symbols that the grammar
uses for itself never are.
-/
namespace ScalarLang.OperatorTable

/-- A table that configuring, installing and freezing lead to. -/
inductive Reachable : OperatorTable → Prop
  | standard : Reachable standard
  | ofSettings {settings : List (Setting × Setting)} {table : OperatorTable}
      (h : ofSettings settings = .ok table) : Reachable table
  | install {table after : OperatorTable} {symbol precedence : Setting} (hr : Reachable table)
      (h : table.install symbol precedence = .ok after) : Reachable after
  | freeze {table : OperatorTable} (hr : Reachable table) : Reachable table.freeze

/-! ### What installing keeps -/

section Keeps

variable {P : OperatorTable → Prop}
  (hinstall : ∀ {table after : OperatorTable} {symbol precedence : Setting}, P table →
    table.install symbol precedence = .ok after → P after)
include hinstall

theorem installAll_keeps {settings : Ledger Setting Setting} {table after : OperatorTable}
    (hp : P table)
    (h : settings.foldlM (fun table entry => table.install entry.1 entry.2) table = .ok after) :
    P after := by
  induction settings generalizing table with
  | nil =>
    cases h
    exact hp
  | cons entry rest ih =>
    rw [List.foldlM_cons] at h
    obtain ⟨middle, hentry, hrest⟩ := bind_eq_ok.1 h
    exact ih (hinstall hp hentry) hrest

/-- What holds of the empty table, and is kept by installing and freezing, holds of every table. -/
theorem Reachable.keeps {table : OperatorTable} (h : table.Reachable) (hempty : P {})
    (hfreeze : ∀ {table}, P table → P table.freeze) : P table := by
  induction h with
  | standard =>
    have hstandard : OperatorTable.ofSettings [(.text "<", .whole 10), (.text "+", .whole 20),
        (.text "-", .whole 20), (.text "*", .whole 40)] = .ok OperatorTable.standard := rfl
    exact installAll_keeps hinstall hempty hstandard
  | ofSettings h => exact installAll_keeps hinstall hempty h
  | install _ h ih => exact hinstall ih h
  | freeze _ ih => exact hfreeze ih

end Keeps

/-- A token is an operator of the table. -/
def Joins (table : OperatorTable) (t : Token) : Prop :=
  ∃ text, t.kind = .symbol text ∧ table.has (.text text) = true

/-! ### The characters of a table -/

/-- A table holds only characters that can be operators. -/
def Visible (table : OperatorTable) : Prop :=
  ∀ c p, table.entries.get? c = some p → isOperator c = true

theorem isOperator_of_operator? {symbol : Setting} {c : Char} (h : operator? symbol = some c) :
    isOperator c = true := by
  unfold operator? at h
  split at h
  · split at h
    · split at h
      · next hc =>
        cases h
        exact hc
      · cases h
    · cases h
  · cases h

theorem install_eq_ok {table after : OperatorTable} {symbol precedence : Setting}
    (h : table.install symbol precedence = .ok after) :
    ∃ c p, isOperator c = true ∧ after = { table with entries := table.entries.put c p } := by
  unfold install at h
  split at h
  · cases h
  · split at h
    · cases h
    · next c hc =>
      split at h
      · cases h
      · next p hp =>
        cases h
        exact ⟨c, p, isOperator_of_operator? hc, rfl⟩

theorem Visible.install {table after : OperatorTable} {symbol precedence : Setting}
    (hv : table.Visible) (h : table.install symbol precedence = .ok after) : after.Visible := by
  obtain ⟨c, p, hc, rfl⟩ := install_eq_ok h
  intro d q hd
  rcases Ledger.get?_put_cases hd with ⟨rfl, rfl⟩ | hold
  · exact hc
  · exact hv d q hold

theorem Reachable.visible {table : OperatorTable} (h : table.Reachable) : table.Visible := by
  have hempty : Visible {} := by
    intro c p hc
    cases hc
  exact h.keeps Visible.install hempty id

/-! ### Operators and precedences -/

variable {table : OperatorTable} {t : Token}

theorem precedenceOf_cases (table : OperatorTable) (text : String) :
    (table.has (.text text) = true ∧ ∃ c p, text.toList = [c] ∧ table.entries.get? c = some p ∧
      table.precedenceOf text = p) ∨
    (table.has (.text text) = false ∧ table.precedenceOf text = -1) := by
  simp only [precedenceOf, has, Ledger.has]
  rcases text.toList with _ | ⟨c, _ | ⟨d, rest⟩⟩
  · exact Or.inr ⟨rfl, rfl⟩
  · cases hp : table.entries.get? c with
    | some p => exact Or.inl ⟨by simp [hp], c, p, rfl, hp, by simp [hp]⟩
    | none => exact Or.inr ⟨by simp [hp], by simp [hp]⟩
  · exact Or.inr ⟨rfl, rfl⟩

theorem Joins.precedence_nonneg (h : table.Joins t) : 0 ≤ table.precedence t := by
  obtain ⟨text, hkind, hhas⟩ := h
  rw [precedence, hkind]
  rcases precedenceOf_cases table text with ⟨_, c, p, _, _, hp⟩ | ⟨hno, _⟩
  · simp only [hp]
    omega
  · rw [hhas] at hno
    cases hno

theorem precedence_of_not_joins (h : ¬ table.Joins t) : table.precedence t = -1 := by
  unfold precedence
  split
  · next text hkind =>
    rcases precedenceOf_cases table text with ⟨hhas, _⟩ | ⟨_, hp⟩
    · exact absurd ⟨text, hkind, hhas⟩ h
    · exact hp
  · rfl

theorem joins_of_precedence (h : 0 ≤ table.precedence t) : table.Joins t := by
  by_contra hno
  rw [precedence_of_not_joins hno] at h
  omega

/-! ### The symbols of the grammar -/

/-- The symbols that stand between the parts of a source. -/
def punctuation : List String := ["(", ")", ",", ";"]

theorem isOperator_of_punctuation {text : String} (h : text ∈ punctuation) {c : Char}
    (hc : text.toList = [c]) : isOperator c = false := by
  simp only [punctuation, List.mem_cons, List.not_mem_nil, or_false] at h
  rcases h with rfl | rfl | rfl | rfl
  all_goals
    cases hc
    decide

theorem Reachable.not_joins_of_isSymbol (hr : table.Reachable) {text : String}
    (htext : text ∈ punctuation) (ht : t.isSymbol text = true) : ¬ table.Joins t := by
  rintro ⟨own, hkind, hhas⟩
  have hown : own = text := by
    simpa [Token.isSymbol, hkind] using ht
  rcases precedenceOf_cases table own with ⟨_, c, p, hc, hp, _⟩ | ⟨hno, _⟩
  · rw [hown] at hc
    have hfree := isOperator_of_punctuation htext hc
    rw [hr.visible c p hp] at hfree
    cases hfree
  · rw [hhas] at hno
    cases hno

end ScalarLang.OperatorTable
