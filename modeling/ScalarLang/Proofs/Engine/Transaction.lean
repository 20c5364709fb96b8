import ScalarLang.Engine.Store

/-!
# Definitions as transactions

Defining a function enrolls it before its body is lowered and takes that back when the body is
rejected. On a store with no open scope the result is that of a transaction: a definition that is
rejected leaves the store as it was (entries, their order and their values), and one that is
accepted leaves its prototype among the signatures and its body among the definitions. All later
facts on stores start from these equations and not from the single steps.
-/
namespace ScalarLang.Store

variable {β : Type}

/-! ### Single steps -/

@[simp] theorem record_scope (s : Store β) (p : Prototype) : (s.record p).scope = s.scope := by
  unfold record
  split <;> rfl

@[simp] theorem record_definitions (s : Store β) (p : Prototype) :
    (s.record p).definitions = s.definitions := by
  unfold record
  split <;> rfl

@[simp] theorem keep_scope (s : Store β) (d : Definition β) : (s.keep d).scope = s.scope := by
  unfold keep
  split <;> rfl

@[simp] theorem keep_signatures (s : Store β) (d : Definition β) :
    (s.keep d).signatures = s.signatures := by
  unfold keep
  split <;> rfl

theorem record_of_named {s : Store β} {p : Prototype} (h : p.isAnonymous = false) :
    s.record p = { s with signatures := s.signatures.put p.name p } := by
  simp [record, h]

theorem record_of_anonymous {s : Store β} {p : Prototype} (h : p.isAnonymous = true) :
    s.record p = s := by
  simp [record, h]

theorem keep_of_named {s : Store β} {d : Definition β}
    (h : d.function.prototype.isAnonymous = false) :
    s.keep d = { s with definitions := s.definitions.put d.function.name d } := by
  simp [keep, h]

theorem keep_of_anonymous {s : Store β} {d : Definition β}
    (h : d.function.prototype.isAnonymous = true) : s.keep d = s := by
  simp [keep, h]

/-- What has a signature once a prototype is recorded: the function of that prototype, unless it is
without a name, and what had one before. -/
theorem get?_record_cases {s : Store β} {p q : Prototype} {name : String}
    (h : (s.record p).signatures.get? name = some q) :
    (p.isAnonymous = false ∧ name = p.name ∧ q = p) ∨ s.signatures.get? name = some q := by
  cases ha : p.isAnonymous with
  | true =>
    rw [record_of_anonymous ha] at h
    exact Or.inr h
  | false =>
    rw [record_of_named ha] at h
    exact (Ledger.get?_put_cases h).imp_left fun hown => ⟨rfl, hown⟩

/-- The same for bodies. -/
theorem get?_keep_cases {s : Store β} {d e : Definition β} {name : String}
    (h : (s.keep d).definitions.get? name = some e) :
    (d.function.prototype.isAnonymous = false ∧ name = d.function.name ∧ e = d) ∨
      s.definitions.get? name = some e := by
  cases ha : d.function.prototype.isAnonymous with
  | true =>
    rw [keep_of_anonymous ha] at h
    exact Or.inr h
  | false =>
    rw [keep_of_named ha] at h
    exact (Ledger.get?_put_cases h).imp_left fun hown => ⟨rfl, hown⟩

theorem close_eq {s : Store β} (h : s.scope = none) : { s with scope := none } = s := by
  obtain ⟨signatures, definitions, scope⟩ := s
  change scope = none at h
  subst h
  rfl

/-- Enrolling changes nothing but the signature of the function. -/
theorem enroll_eq_record {s enrolled : Store β} {p : Prototype} (h : s.enroll p = .ok enrolled) :
    enrolled = s.record p := by
  by_cases ha : p.isAnonymous = true
  · have hs : Except.ok (ε := Rejection) s = .ok enrolled := by simpa [enroll, ha] using h
    rw [record_of_anonymous ha]
    exact (Except.ok.inj hs).symm
  · simp only [enroll, ha, Bool.false_eq_true, if_false] at h
    split at h
    · cases h
    · split at h
      · split at h
        · exact (Except.ok.inj h).symm
        · cases h
      · exact (Except.ok.inj h).symm

/-- Withdrawing takes back exactly what was recorded, whether the name was new or known. -/
theorem withdraw_record (s : Store β) (p : Prototype) (scope : Option Prototype) :
    ({ s.record p with scope := scope }).withdraw p (s.signatures.get? p.name) =
      { s with scope := scope } := by
  by_cases ha : p.isAnonymous = true
  · simp [withdraw, record, ha]
  · have hn : p.isAnonymous = false := by simpa using ha
    rw [record_of_named hn]
    cases hp : s.signatures.get? p.name with
    | none => simp [withdraw, hn, Ledger.erase_put_of_new s.signatures p hp]
    | some known => simp [withdraw, hn, Ledger.put_put_of_known s.signatures p hp]

/-! ### Whole requests -/

/-- What a definition amounts to when no scope is open: nothing is changed unless it is accepted. -/
theorem define_eq (lower : Signatures → Function → Except Rejection β) (f : Function)
    {s : Store β} (h : s.scope = none) :
    define lower f s =
      match s.enroll f.prototype with
      | .error rejection => .error rejection s
      | .ok enrolled =>
        match lower enrolled.signatures f with
        | .error rejection => .error rejection s
        | .ok body =>
          .ok ⟨⟨f, body⟩, if f.prototype.isAnonymous then []
              else [s!"defined {f.name}/{f.prototype.arity}"]⟩
            ((s.record f.prototype).keep ⟨f, body⟩) := by
  cases he : s.enroll f.prototype with
  | error rejection => simp [define, he]
  | ok enrolled =>
    obtain rfl := enroll_eq_record he
    simp only [define, he, lowerExpr]
    cases hl : lower (s.record f.prototype).signatures f with
    | error rejection =>
      have hw := withdraw_record s f.prototype (some f.prototype)
      dsimp only
      rw [show f.name = f.prototype.name from rfl, hw, close_eq h]
    | ok body =>
      have hr : (s.record f.prototype).scope = none := by rw [record_scope, h]
      dsimp only
      rw [close_eq hr]

theorem define_error {lower : Signatures → Function → Except Rejection β} {f : Function}
    {s after : Store β} {rejection : Rejection} (h : s.scope = none)
    (hd : define lower f s = .error rejection after) : after = s := by
  rw [define_eq lower f h] at hd
  split at hd
  · cases hd
    rfl
  · split at hd
    · cases hd
      rfl
    · cases hd

/-- A definition that is accepted was enrolled and lowered under the signatures with its own. -/
theorem define_ok {lower : Signatures → Function → Except Rejection β} {f : Function}
    {s after : Store β} {l : Lowered (Definition β)} (h : s.scope = none)
    (hd : define lower f s = .ok l after) :
    s.enroll f.prototype = .ok (s.record f.prototype) ∧
      ∃ body, lower (s.record f.prototype).signatures f = .ok body ∧ l.handle = ⟨f, body⟩ ∧
        after = (s.record f.prototype).keep ⟨f, body⟩ := by
  rw [define_eq lower f h] at hd
  split at hd
  · cases hd
  · next enrolled he =>
    obtain rfl := enroll_eq_record he
    split at hd
    · cases hd
    · next body hb =>
      cases hd
      exact ⟨he, body, hb, rfl, rfl⟩

theorem declare_error {p : Prototype} {s after : Store β} {rejection : Rejection}
    (h : declare p s = .error rejection after) : after = s := by
  unfold declare at h
  split at h
  · split at h
    · cases h
    · cases h
      rfl
  · cases h

/-- A declaration that is accepted was known with as many parameters and changes nothing, or was
new and is recorded. -/
theorem declare_ok {p : Prototype} {s after : Store β} {l : Lowered (Handle β)}
    (h : declare p s = .ok l after) :
    (∃ known, s.signatures.get? p.name = some known ∧ known.arity = p.arity ∧
        l.handle = .declared p known ∧ after = s) ∨
      (s.signatures.get? p.name = none ∧ l.handle = .declared p p ∧ after = s.record p) := by
  unfold declare at h
  split at h
  · next known hk =>
    split at h
    · next ha =>
      cases h
      exact Or.inl ⟨known, hk, ha, rfl, rfl⟩
    · cases h
  · next hk =>
    cases h
    exact Or.inr ⟨hk, rfl, rfl⟩

end ScalarLang.Store
