import Mathlib.Data.List.Forall2

/-!
# Outcomes of steps that can fail

Inversion of binds and of traversals, for results and for steps over a state.
-/
namespace ScalarLang

section Results

variable {ε α β : Type}

theorem bind_eq_ok {x : Except ε α} {f : α → Except ε β} {b : β} :
    (x >>= f) = .ok b ↔ ∃ a, x = .ok a ∧ f a = .ok b := by
  cases x with
  | error e =>
    constructor
    · intro h
      cases h
    · rintro ⟨a, ha, _⟩
      cases ha
  | ok a =>
    constructor
    · intro h
      exact ⟨a, rfl, h⟩
    · rintro ⟨a', ha, hf⟩
      cases ha
      exact hf

theorem bind_eq_error {x : Except ε α} {f : α → Except ε β} {e : ε}
    (h : (x >>= f) = .error e) : x = .error e ∨ ∃ a, x = .ok a ∧ f a = .error e := by
  cases x with
  | error e' =>
    cases h
    exact Or.inl rfl
  | ok a => exact Or.inr ⟨a, rfl, h⟩

theorem mapError_error {δ : Type} (g : ε → δ) (e : ε) :
    (Except.error e : Except ε α).mapError g = .error (g e) := rfl

theorem mapError_ok {δ : Type} (g : ε → δ) (a : α) :
    (Except.ok a : Except ε α).mapError g = .ok a := rfl

theorem forall₂_of_mapM {f : α → Except ε β} {xs : List α} {ys : List β}
    (h : xs.mapM f = .ok ys) : List.Forall₂ (fun x y => f x = .ok y) xs ys := by
  induction xs generalizing ys with
  | nil =>
    cases h
    exact .nil
  | cons x xs ih =>
    rw [List.mapM_cons] at h
    obtain ⟨y, hy, h⟩ := bind_eq_ok.1 h
    obtain ⟨rest, hrest, h⟩ := bind_eq_ok.1 h
    cases h
    exact .cons hy (ih hrest)

theorem mapM_of_forall₂ {f : α → Except ε β} {xs : List α} {ys : List β}
    (h : List.Forall₂ (fun x y => f x = .ok y) xs ys) : xs.mapM f = .ok ys := by
  induction h with
  | nil => rfl
  | cons hx _ ih =>
    rw [List.mapM_cons]
    exact bind_eq_ok.2 ⟨_, hx, bind_eq_ok.2 ⟨_, ih, rfl⟩⟩

theorem exists_of_mapM {f : α → Except ε β} {xs : List α} {ys : List β} {x : α}
    (h : xs.mapM f = .ok ys) (hx : x ∈ xs) : ∃ y, f x = .ok y := by
  have hall := forall₂_of_mapM h
  obtain ⟨i, hi, rfl⟩ := List.mem_iff_getElem.1 hx
  exact ⟨_, hall.get hi (hall.length_eq ▸ hi)⟩

theorem mem_of_mapM_error {f : α → Except ε β} {xs : List α} {e : ε}
    (h : xs.mapM f = .error e) : ∃ x ∈ xs, f x = .error e := by
  induction xs with
  | nil => cases h
  | cons x xs ih =>
    rw [List.mapM_cons] at h
    rcases bind_eq_error h with hx | ⟨y, _, h⟩
    · exact ⟨x, List.mem_cons_self .., hx⟩
    · rcases bind_eq_error h with hrest | ⟨rest, _, h⟩
      · obtain ⟨z, hz, hf⟩ := ih hrest
        exact ⟨z, List.mem_cons_of_mem _ hz, hf⟩
      · cases h

theorem mapM_error_of_split {f : α → Except ε β} {before after : List α} {a : α}
    {done : List β} {e : ε} (hb : before.mapM f = .ok done) (ha : f a = .error e) :
    (before ++ a :: after).mapM f = .error e := by
  rw [List.mapM_append, hb, List.mapM_cons, ha]
  rfl

theorem exists_split_of_mapM_error {f : α → Except ε β} {xs : List α} {e : ε}
    (h : xs.mapM f = .error e) :
    ∃ before a after done, xs = before ++ a :: after ∧ before.mapM f = .ok done ∧
      f a = .error e := by
  induction xs with
  | nil => cases h
  | cons x rest ih =>
    rw [List.mapM_cons] at h
    rcases bind_eq_error h with hx | ⟨y, hy, h⟩
    · exact ⟨[], x, rest, [], rfl, rfl, hx⟩
    · rcases bind_eq_error h with hrest | ⟨ys, _, h⟩
      · obtain ⟨before, a, after, done, rfl, hdone, ha⟩ := ih hrest
        refine ⟨x :: before, a, after, y :: done, rfl, ?_, ha⟩
        rw [List.mapM_cons, hy, hdone]
        rfl
      · cases h

end Results

section Steps

variable {ε σ α β : Type} {x : EStateM ε σ α} {s after : σ}

theorem step_bind_eq_ok {f : α → EStateM ε σ β} {b : β} :
    (x >>= f) s = .ok b after ↔ ∃ a middle, x s = .ok a middle ∧ f a middle = .ok b after := by
  change EStateM.bind x f s = _ ↔ _
  unfold EStateM.bind
  cases hx : x s with
  | ok a middle =>
    constructor
    · intro h
      exact ⟨a, middle, rfl, h⟩
    · rintro ⟨a', middle', ha, hf⟩
      cases ha
      exact hf
  | error e middle =>
    constructor
    · intro h
      cases h
    · rintro ⟨a, middle', ha, _⟩
      cases ha

theorem step_bind_ok {f : α → EStateM ε σ β} {a : α} (h : x s = .ok a after) :
    (x >>= f) s = f a after := by
  change EStateM.bind x f s = _
  rw [EStateM.bind, h]

theorem step_bind_error {f : α → EStateM ε σ β} {e : ε} (h : x s = .error e after) :
    (x >>= f) s = .error e after := by
  change EStateM.bind x f s = _
  rw [EStateM.bind, h]

theorem step_bind_eq_error {f : α → EStateM ε σ β} {e : ε} (h : (x >>= f) s = .error e after) :
    x s = .error e after ∨ ∃ a middle, x s = .ok a middle ∧ f a middle = .error e after := by
  cases hx : x s with
  | ok a middle =>
    rw [step_bind_ok hx] at h
    exact Or.inr ⟨a, middle, rfl, h⟩
  | error e' middle =>
    rw [step_bind_error hx] at h
    cases h
    exact Or.inl rfl

theorem step_map_eq_ok {g : α → β} {b : β} (h : (g <$> x) s = .ok b after) :
    ∃ a, x s = .ok a after ∧ g a = b := by
  change EStateM.map g x s = _ at h
  unfold EStateM.map at h
  split at h
  · next a middle hx =>
    cases h
    exact ⟨a, hx, rfl⟩
  · cases h

theorem step_map_ok {g : α → β} {a : α} (h : x s = .ok a after) :
    (g <$> x) s = .ok (g a) after := by
  simp [Functor.map, EStateM.map, h]

theorem step_map_error {g : α → β} {e : ε} (h : x s = .error e after) :
    (g <$> x) s = .error e after := by
  simp [Functor.map, EStateM.map, h]

theorem step_map_congr {y : EStateM ε σ α} (g : α → β) (h : x s = y s) :
    (g <$> x) s = (g <$> y) s := by
  simp [Functor.map, EStateM.map, h]

theorem step_map_eq_error {g : α → β} {e : ε} (h : (g <$> x) s = .error e after) :
    x s = .error e after := by
  cases hx : x s with
  | ok a middle =>
    rw [step_map_ok hx] at h
    cases h
  | error e' middle =>
    rw [step_map_error hx] at h
    cases h
    rfl

theorem ofExcept_cases (result : Except ε α) (s : σ) :
    (∃ a, result = .ok a ∧ (ofExcept result : EStateM ε σ α) s = .ok a s) ∨
      ∃ e, result = .error e ∧ (ofExcept result : EStateM ε σ α) s = .error e s := by
  cases result with
  | ok a => exact Or.inl ⟨a, rfl, rfl⟩
  | error e => exact Or.inr ⟨e, rfl, rfl⟩

end Steps

end ScalarLang
