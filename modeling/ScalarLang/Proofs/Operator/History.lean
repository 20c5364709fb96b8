import ScalarLang.Proofs.Ledger
import ScalarLang.Proofs.Operator.Installed
import ScalarLang.Proofs.Token.Symbols

/-!
# The history of an operator table

What a table holds is told by what it started with and by the installations that have been asked of
it. Up to the first freezing each installation of a symbol that can be an operator, with a
precedence that can be one, makes an entry; all others are refused and change nothing. What a table
holds has a positive precedence, and is read as a token of its own wherever it stands in a source.
-/
namespace ScalarLang.OperatorTable

/-! ### Changes -/

/-- Something that can be asked of a table. -/
inductive Change where
  | install (symbol precedence : Setting)
  | freeze

namespace Change

def isFreeze : Change → Bool
  | install _ _ => false
  | freeze => true

/-- The entry that a change makes in a table that is not frozen. -/
def entry? : Change → Option (Char × Nat)
  | install symbol precedence =>
    match operator? symbol, precedence? precedence with
    | some c, some p => some (c, p)
    | _, _ => none
  | freeze => none

end Change

/-- The table after a change. An installation that is refused leaves it as it is. -/
def change (table : OperatorTable) : Change → OperatorTable
  | .install symbol precedence =>
    match table.install symbol precedence with
    | .ok after => after
    | .error _ => table
  | .freeze => table.freeze

def changeAll (table : OperatorTable) (changes : List Change) : OperatorTable :=
  changes.foldl change table

/-- The entries that changes make: those before the first freezing. -/
def made (changes : List Change) : List (Char × Nat) :=
  (changes.takeWhile fun change => !change.isFreeze).filterMap Change.entry?

/-! ### Single changes -/

section Install

variable {table : OperatorTable} {symbol precedence : Setting}

theorem install_of_frozen (h : table.frozen = true) (symbol precedence : Setting) :
    table.install symbol precedence = .error .frozen := by
  rw [install, if_pos h]

theorem install_of_entry {c : Char} {p : Nat} (h : table.frozen = false)
    (hentry : Change.entry? (.install symbol precedence) = some (c, p)) :
    table.install symbol precedence = .ok { table with entries := table.entries.put c p } := by
  rw [Change.entry?] at hentry
  rw [install, h, if_neg Bool.false_ne_true]
  split at hentry
  · next hc hp =>
    cases hentry
    rw [hc]
    dsimp only
    rw [hp]
  · cases hentry

/-- What is wrong with settings that make no entry: the symbol, or else the precedence. -/
def complaint (symbol precedence : Setting) : InstallError :=
  if (operator? symbol).isNone then .symbol symbol else .precedence precedence

theorem install_of_none (h : table.frozen = false)
    (hentry : Change.entry? (.install symbol precedence) = none) :
    table.install symbol precedence = .error (complaint symbol precedence) := by
  rw [Change.entry?] at hentry
  rw [install, h, if_neg Bool.false_ne_true, complaint]
  cases hc : operator? symbol with
  | none => rfl
  | some c =>
    cases hp : precedence? precedence with
    | none => rfl
    | some p =>
      rw [hc, hp] at hentry
      cases hentry

theorem install_eq_ok_iff {after : OperatorTable} :
    table.install symbol precedence = .ok after ↔ table.frozen = false ∧ ∃ c p,
      Change.entry? (.install symbol precedence) = some (c, p) ∧
        after = { table with entries := table.entries.put c p } := by
  by_cases hf : table.frozen = true
  · rw [install_of_frozen hf, hf]
    constructor
    · intro h
      cases h
    · rintro ⟨h, _⟩
      cases h
  · rw [Bool.not_eq_true] at hf
    cases hentry : Change.entry? (.install symbol precedence) with
    | none =>
      rw [install_of_none hf hentry]
      constructor
      · intro h
        cases h
      · rintro ⟨_, c, p, h, _⟩
        cases h
    | some entry =>
      obtain ⟨c, p⟩ := entry
      rw [install_of_entry hf hentry]
      constructor
      · intro h
        cases h
        exact ⟨hf, c, p, rfl, rfl⟩
      · rintro ⟨_, c', p', h, rfl⟩
        cases h
        rfl

/-- The settings of an entry: a single visible character of ASCII that is neither a letter nor a
digit nor reserved, and a positive whole number. -/
structure Names (symbol precedence : Setting) (c : Char) (p : Nat) : Prop where
  symbol_eq : symbol = .text (String.singleton c)
  visible : 32 < c.toNat ∧ c.toNat < 127
  alphanum : c.isAlphanum = false
  free : c ∉ ['(', ')', ',', ';', '#', '.']
  precedence_eq : precedence = .whole p
  positive : 0 < p

theorem operator?_eq_some_iff {c : Char} : operator? symbol = some c ↔
    symbol = .text (String.singleton c) ∧ isOperator c = true := by
  constructor
  · intro h
    refine ⟨?_, isOperator_of_operator? h⟩
    unfold operator? at h
    split at h
    · next text =>
      split at h
      · next d htext =>
        split at h
        · cases h
          rw [← String.ofList_toList (s := text), htext, String.singleton_eq_ofList]
        · cases h
      · cases h
    · cases h
  · rintro ⟨rfl, hc⟩
    rw [operator?, String.toList_singleton]
    exact if_pos hc

theorem precedence?_eq_some_iff {p : Nat} : precedence? precedence = some p ↔
    precedence = .whole p ∧ 0 < p := by
  unfold precedence?
  split
  · next value =>
    split
    · next hpos =>
      constructor
      · intro h
        cases h
        exact ⟨congrArg Setting.whole (Int.toNat_of_nonneg (Int.le_of_lt hpos)).symm, by omega⟩
      · rintro ⟨h, _⟩
        cases h
        rfl
    · next hneg =>
      constructor
      · intro h
        cases h
      · rintro ⟨h, hpos⟩
        cases h
        omega
  · next hother =>
    constructor
    · intro h
      cases h
    · rintro ⟨rfl, _⟩
      exact absurd rfl (hother _)

theorem isOperator_iff {c : Char} : isOperator c = true ↔ (32 < c.toNat ∧ c.toNat < 127) ∧
    c.isAlphanum = false ∧ c ∉ ['(', ')', ',', ';', '#', '.'] := by
  simp [isOperator, reserved, and_assoc]

theorem entry?_eq_some_iff {c : Char} {p : Nat} :
    Change.entry? (.install symbol precedence) = some (c, p) ↔ Names symbol precedence c p := by
  have hboth : Change.entry? (.install symbol precedence) = some (c, p) ↔
      operator? symbol = some c ∧ precedence? precedence = some p := by
    rw [Change.entry?]
    cases operator? symbol with
    | none => simp
    | some d =>
      cases precedence? precedence with
      | none => simp
      | some q => simp
  rw [hboth, operator?_eq_some_iff, precedence?_eq_some_iff, isOperator_iff]
  constructor
  · rintro ⟨⟨hsymbol, hvisible, halnum, hfree⟩, hprecedence, hpos⟩
    exact ⟨hsymbol, hvisible, halnum, hfree, hprecedence, hpos⟩
  · rintro ⟨hsymbol, hvisible, halnum, hfree, hprecedence, hpos⟩
    exact ⟨⟨hsymbol, hvisible, halnum, hfree⟩, hprecedence, hpos⟩

end Install

/-! ### Many changes -/

section Changes

variable {table : OperatorTable}

theorem change_install (table : OperatorTable) (symbol precedence : Setting) :
    table.change (.install symbol precedence) =
      if table.frozen then table
      else { table with
        entries := table.entries.putAll (Change.entry? (.install symbol precedence)).toList } := by
  rw [change]
  by_cases hf : table.frozen = true
  · rw [install_of_frozen hf, if_pos hf]
  · rw [if_neg hf]
    rw [Bool.not_eq_true] at hf
    cases hentry : Change.entry? (.install symbol precedence) with
    | none =>
      rw [install_of_none hf hentry]
      rfl
    | some entry =>
      rw [install_of_entry hf hentry]
      rfl

theorem changeAll_of_frozen (h : table.frozen = true) (changes : List Change) :
    table.changeAll changes = table := by
  induction changes with
  | nil => rfl
  | cons first rest ih =>
    have hfirst : table.change first = table := by
      cases first with
      | install symbol precedence => rw [change_install, if_pos h]
      | freeze => rw [change, freeze, ← h]
    rw [changeAll, List.foldl_cons, hfirst]
    exact ih

/-- The induction is on the changes. Up to the first freezing each makes its entry, and behind it
the table does not change any more. -/
theorem changeAll_eq (h : table.frozen = false) (changes : List Change) :
    table.changeAll changes =
      ⟨table.entries.putAll (made changes), changes.any Change.isFreeze⟩ := by
  induction changes generalizing table with
  | nil => exact congrArg (OperatorTable.mk table.entries) h
  | cons first rest ih =>
    rw [changeAll, List.foldl_cons, ← changeAll]
    cases first with
    | freeze => exact changeAll_of_frozen rfl rest
    | install symbol precedence =>
      have hmade : made (.install symbol precedence :: rest) =
          (Change.entry? (.install symbol precedence)).toList ++ made rest := by
        rw [made, List.takeWhile_cons_of_pos rfl, List.filterMap_cons]
        cases Change.entry? (.install symbol precedence) with
        | none => rfl
        | some entry => rfl
      rw [change_install, h, if_neg Bool.false_ne_true, ih rfl, hmade]
      simp only [Ledger.putAll, List.foldl_append, List.any_cons, Change.isFreeze, Bool.false_or]

theorem Reachable.changeAll (h : table.Reachable) (changes : List Change) :
    (table.changeAll changes).Reachable := by
  induction changes generalizing table with
  | nil => exact h
  | cons first rest ih =>
    refine ih ?_
    cases first with
    | freeze => exact h.freeze
    | install symbol precedence =>
      rw [change]
      split
      · next after hok => exact h.install hok
      · exact h

end Changes

/-! ### Configured tables -/

/-- A configuration as a dictionary: a setting that comes twice as a key keeps its first place and
takes its last value. -/
def dictionary (settings : List (Setting × Setting)) : Ledger Setting Setting :=
  Ledger.putAll [] settings

def written (entry : Char × Nat) : Setting × Setting :=
  (.text (String.singleton entry.1), .whole entry.2)

theorem installAll_written {settings : Ledger Setting Setting} {table after : OperatorTable}
    (h : settings.foldlM (fun table entry => table.install entry.1 entry.2) table = .ok after)
    (hdistinct : Ledger.Distinct (table.entries.map written ++ settings)) :
    after.entries.map written = table.entries.map written ++ settings ∧
      after.frozen = table.frozen := by
  induction settings generalizing table with
  | nil =>
    cases h
    exact ⟨(List.append_nil _).symm, rfl⟩
  | cons first rest ih =>
    rw [List.foldlM_cons] at h
    obtain ⟨middle, hfirst, hrest⟩ := bind_eq_ok.1 h
    obtain ⟨_, c, p, hentry, rfl⟩ := install_eq_ok_iff.1 hfirst
    have hnames := entry?_eq_some_iff.1 hentry
    have hpair : first = written (c, p) := Prod.ext hnames.symbol_eq hnames.precedence_eq
    have hnew : ∀ entry ∈ table.entries, (c == entry.1) = false := by
      intro entry hentry
      have hother := (List.pairwise_append.1 hdistinct).2.2 _ (List.mem_map_of_mem hentry) first
        (List.mem_cons_self ..)
      rw [hpair] at hother
      by_contra hsame
      have hc : c = entry.1 := by simpa using hsame
      subst hc
      simp [written, BEq.beq, Setting.sameKey] at hother
    have hentries : (table.entries.put c p).map written ++ rest =
        table.entries.map written ++ first :: rest := by
      rw [Ledger.put_of_new p hnew, hpair]
      simp
    obtain ⟨hafter, hfrozen⟩ := ih hrest (by rw [hentries]; exact hdistinct)
    exact ⟨hafter.trans hentries, hfrozen⟩

/-- A configured table holds exactly what its configuration says. -/
theorem ofSettings_written {settings : List (Setting × Setting)} {table : OperatorTable}
    (h : ofSettings settings = .ok table) :
    table.entries.map written = dictionary settings ∧ table.frozen = false :=
  installAll_written h (Ledger.Distinct.putAll List.Pairwise.nil settings)

/-! ### What a table holds -/

section Held

variable {table : OperatorTable}

def Positive (table : OperatorTable) : Prop := ∀ c p, table.entries.get? c = some p → 0 < p

theorem Positive.install {after : OperatorTable} {symbol precedence : Setting}
    (hp : table.Positive) (h : table.install symbol precedence = .ok after) : after.Positive := by
  obtain ⟨_, c, p, hentry, rfl⟩ := install_eq_ok_iff.1 h
  intro d q hd
  rcases Ledger.get?_put_cases hd with ⟨rfl, rfl⟩ | hold
  · exact (entry?_eq_some_iff.1 hentry).positive
  · exact hp d q hold

theorem Reachable.positive (h : table.Reachable) : table.Positive := by
  have hempty : Positive {} := by
    intro c p hc
    cases hc
  exact h.keeps Positive.install hempty id

/-- The precedence of a symbol tells whether the table holds it. -/
theorem Reachable.precedence_spec (h : table.Reachable) {t : Token} {text : String}
    (ht : t.kind = .symbol text) :
    (table.has (.text text) = true → 0 < table.precedence t) ∧
      (table.has (.text text) = false → table.precedence t = -1) := by
  rw [precedence, ht]
  rcases precedenceOf_cases table text with ⟨hhas, c, p, _, hp, heq⟩ | ⟨hno, heq⟩
  · refine ⟨fun _ => ?_, fun hno => ?_⟩
    · have hpos := h.positive c p hp
      simp only [heq]
      omega
    · rw [hhas] at hno
      cases hno
  · refine ⟨fun hhas => ?_, fun _ => heq⟩
    rw [hno] at hhas
    cases hhas

/-- A text in a table is read as a symbol wherever it stands outside comments. -/
theorem Reachable.is_read (h : table.Reachable) {text : String}
    (hhas : table.has (.text text) = true) (file : String) {before after : List Char}
    (hopen : ¬ Commented before) :
    ∃ lexeme ∈ lexemes file (before ++ text.toList ++ after), ∃ location,
      lexeme.item = .token ⟨.symbol text, text, some location⟩ ∧
        location.offset = before.length := by
  rcases precedenceOf_cases table text with ⟨_, c, p, htext, hp, _⟩ | ⟨hno, _⟩
  · have hsingle : text = String.singleton c := by
      rw [← String.ofList_toList (s := text), htext, String.singleton_eq_ofList]
    have hread := symbol_is_read file hopen (isSymbol_of_isOperator (h.visible c p hp)) after
    rw [← hsingle] at hread
    rw [htext, List.append_assoc]
    exact hread
  · rw [hhas] at hno
    cases hno

end Held

/-- A table that is configured and then asked for any changes. It starts with exactly the entries of
its configuration. The installations that count are those before the first freezing whose settings
name a visible character, neither a letter, a digit nor punctuation, and a positive whole number:
their entries are put into the table one after the other, so that a known symbol keeps its place and
takes its last precedence. The table is frozen from the first freezing on. Asked for one more
installation it refuses if it is frozen, or else if the settings name nothing. Every symbol that it
holds has a positive precedence and is read as a token of its own wherever it stands outside
comments, and every other symbol has the precedence `-1`. -/
theorem operator_tables_keep_their_history {settings : List (Setting × Setting)}
    {table : OperatorTable} (h : ofSettings settings = .ok table) (changes : List Change) :
    let now := table.changeAll changes
    table.entries.map written = dictionary settings ∧
    now.entries = (made changes).foldl (fun entries entry => entries.put entry.1 entry.2)
      table.entries ∧
    now.entries.keys = table.entries.keys ++
      (((made changes).map (·.1)).removeAll table.entries.keys).eraseDups ∧
    (∀ c, now.entries.get? c = ((made changes).reverse.lookup c).or (table.entries.get? c)) ∧
    (∀ symbol precedence c p, Change.entry? (.install symbol precedence) = some (c, p) ↔
      Names symbol precedence c p) ∧
    now.frozen = changes.any Change.isFreeze ∧
    (∀ symbol precedence,
      (now.frozen = true → now.install symbol precedence = .error .frozen) ∧
      (now.frozen = false → ∀ c p, Names symbol precedence c p →
        now.install symbol precedence = .ok { now with entries := now.entries.put c p }) ∧
      (now.frozen = false → (∀ c p, ¬ Names symbol precedence c p) →
        now.install symbol precedence = .error (complaint symbol precedence)) ∧
      (∀ error, now.install symbol precedence = .error error →
        now.change (.install symbol precedence) = now)) ∧
    (∀ t text, t.kind = .symbol text →
      (now.has (.text text) = true → 0 < now.precedence t) ∧
      (now.has (.text text) = false → now.precedence t = -1)) ∧
    (∀ text, now.has (.text text) = true → ∀ file before after, ¬ Commented before →
      ∃ lexeme ∈ lexemes file (before ++ text.toList ++ after), ∃ location,
        lexeme.item = .token ⟨.symbol text, text, some location⟩ ∧
          location.offset = before.length) := by
  intro now
  obtain ⟨hwritten, hfrozen⟩ := ofSettings_written h
  have hnow : now = ⟨table.entries.putAll (made changes), changes.any Change.isFreeze⟩ :=
    changeAll_eq hfrozen changes
  have hreachable : now.Reachable := (Reachable.ofSettings h).changeAll changes
  refine ⟨hwritten, congrArg entries hnow, ?_, fun c => ?_,
    fun symbol precedence c p => entry?_eq_some_iff, congrArg frozen hnow,
    fun symbol precedence => ⟨fun hf => install_of_frozen hf symbol precedence,
      fun hf c p hnames => install_of_entry hf (entry?_eq_some_iff.2 hnames), fun hf hnone => ?_,
      fun error herror => ?_⟩,
    fun t text ht => hreachable.precedence_spec ht,
    fun text hhas file before after hopen => hreachable.is_read hhas file hopen⟩
  · rw [hnow]
    exact Ledger.keys_putAll table.entries (made changes)
  · rw [hnow]
    exact Ledger.get?_putAll table.entries (made changes) c
  · refine install_of_none hf (Option.eq_none_iff_forall_ne_some.2 ?_)
    rintro ⟨c, p⟩ hentry
    exact hnone c p (entry?_eq_some_iff.1 hentry)
  · rw [change, herror]

/-- The usual operators, a new one and a new precedence, two refusals, and one more when the table
is frozen. -/
theorem operator_tables_keep_their_history_usual :
    let settings := [("<", 10), ("+", 20), ("-", 20), ("*", 40)].map fun (symbol, p) =>
      (Setting.text symbol, Setting.whole p)
    let changes := [.install (.text "%") (.whole 30), .install (.text "+") (.whole 50),
      .install (.text "x") (.whole 30), .install (.text "^") (.flag true), .freeze,
      .install (.text "/") (.whole 40)]
    let now := standard.changeAll changes
    ofSettings settings = .ok standard ∧
    now.entries = [('<', 10), ('+', 50), ('-', 20), ('*', 40), ('%', 30)] ∧ now.frozen = true ∧
    now.install (.text "/") (.whole 40) = .error .frozen ∧
    ∃ lexeme ∈ lexemes "" "# %\n1%2".toList, ∃ location,
      lexeme.item = .token ⟨.symbol "%", "%", some location⟩ ∧ location.offset = 5 := by
  intro settings changes now
  have hsettings : ofSettings settings = .ok standard := rfl
  obtain ⟨_, hentries, _, _, _, hfrozen, hinstall, _, hread⟩ :=
    operator_tables_keep_their_history hsettings changes
  have hopen : ¬ Commented "# %\n1".toList := by
    rw [Commented]
    decide
  exact ⟨hsettings, hentries, hfrozen, (hinstall _ _).1 hfrozen,
    hread "%" rfl "" "# %\n1".toList "2".toList hopen⟩

end ScalarLang.OperatorTable
