import ScalarLang.IR.Engine
import ScalarLang.Proofs.Engine.Kept
import ScalarLang.Proofs.IR.Compiled

/-!
# Linked modules

Linking replaces the declarations of a module by the procedures that implement them, as long as
there are some that have a definition. What is held on the way is closed under calls and holds only
what the module reaches, so where all of that is defined no declaration is left. Every round links a
definition for the first time, which bounds their number.
-/
namespace ScalarLang.IR

/-! ### Symbols of a module -/

namespace Module

def symbols (m : Module) : List String := m.procedures.map Procedure.symbol

theorem mem_symbols {m : Module} {name : String} :
    name ∈ m.symbols ↔ ∃ p ∈ m.procedures, p.symbol = name := List.mem_map

theorem find?_eq_some {m : Module} {name : String} {p : Procedure} (h : m.find? name = some p) :
    p ∈ m.procedures ∧ p.symbol = name := by
  refine ⟨List.mem_of_find?_eq_some h, ?_⟩
  have hsymbol := List.find?_some h
  simpa using hsymbol

theorem exists_find? {m : Module} {name : String} (h : name ∈ m.symbols) :
    ∃ p, m.find? name = some p := by
  obtain ⟨p, hp, hsymbol⟩ := mem_symbols.1 h
  cases hfind : m.find? name with
  | some q => exact ⟨q, rfl⟩
  | none =>
    have hnot := List.find?_eq_none.1 hfind p hp
    simp [hsymbol] at hnot

theorem find?_eq_none {m : Module} {name : String} : m.find? name = none ↔ name ∉ m.symbols := by
  constructor
  · intro h hmem
    obtain ⟨p, hp⟩ := exists_find? hmem
    rw [h] at hp
    cases hp
  · intro h
    cases hfind : m.find? name with
    | none => rfl
    | some p =>
      obtain ⟨hp, hsymbol⟩ := find?_eq_some hfind
      exact absurd (mem_symbols.2 ⟨p, hp, hsymbol⟩) h

/-- In a module without repeated symbols a symbol stands for one procedure. -/
theorem eq_of_symbol_eq {m : Module} (h : m.symbols.Nodup) {p q : Procedure}
    (hp : p ∈ m.procedures) (hq : q ∈ m.procedures) (hsymbol : p.symbol = q.symbol) : p = q :=
  List.inj_on_of_nodup_map h hp hq hsymbol

/-! ### Adding declarations -/

/-- What is added to a module from another one for some symbols. -/
structure Filled (m other : Module) (wanted : List String) (after : Module) : Prop where
  procedures : ∃ added, after.procedures = m.procedures ++ added ∧
    ∀ p ∈ added, p ∈ other.procedures ∧ p.symbol ∈ wanted ∧ p.symbol ∉ m.symbols
  distinct : m.symbols.Nodup → after.symbols.Nodup
  covered : ∀ name ∈ wanted, name ∈ other.symbols → name ∈ after.symbols

namespace Filled

variable {m middle after other : Module} {wanted others : List String}

theorem nil (m other : Module) : Filled m other [] m where
  procedures := ⟨[], (List.append_nil _).symm, by simp⟩
  distinct h := h
  covered := by simp

theorem symbols_subset (h : Filled m other wanted after) : m.symbols ⊆ after.symbols := by
  obtain ⟨added, hadded, _⟩ := h.procedures
  intro name hname
  obtain ⟨p, hp, hsymbol⟩ := mem_symbols.1 hname
  refine mem_symbols.2 ⟨p, ?_, hsymbol⟩
  rw [hadded]
  exact List.mem_append_left _ hp

theorem append (h : Filled m other wanted middle) (h' : Filled middle other others after) :
    Filled m other (wanted ++ others) after where
  procedures := by
    obtain ⟨first, hfirst, hfrom⟩ := h.procedures
    obtain ⟨second, hsecond, hfrom'⟩ := h'.procedures
    refine ⟨first ++ second, by rw [hsecond, hfirst, List.append_assoc], fun p hp => ?_⟩
    rcases List.mem_append.1 hp with hp | hp
    · obtain ⟨hin, hwanted, hnew⟩ := hfrom p hp
      exact ⟨hin, List.mem_append_left _ hwanted, hnew⟩
    · obtain ⟨hin, hwanted, hnew⟩ := hfrom' p hp
      exact ⟨hin, List.mem_append_right _ hwanted, fun hold => hnew (h.symbols_subset hold)⟩
  distinct hdistinct := h'.distinct (h.distinct hdistinct)
  covered name hname hother := by
    rcases List.mem_append.1 hname with hname | hname
    · exact h'.symbols_subset (h.covered name hname hother)
    · exact h'.covered name hname hother

end Filled

/-- Adds the declaration of one symbol unless the module holds it. -/
def declareOne (m other : Module) (symbol : String) : Module :=
  match m.find? symbol, other.find? symbol with
  | none, some p => { m with procedures := m.procedures ++ [p] }
  | _, _ => m

theorem declareFrom_cons (m other : Module) (symbol : String) (rest : List String) :
    m.declareFrom other (symbol :: rest) = (m.declareOne other symbol).declareFrom other rest := rfl

theorem declareOne_filled (m other : Module) (symbol : String) :
    Filled m other [symbol] (m.declareOne other symbol) := by
  unfold declareOne
  split
  · next p hnone hp =>
    obtain ⟨hmem, rfl⟩ := find?_eq_some hp
    have hnew := find?_eq_none.1 hnone
    refine ⟨⟨[p], rfl, ?_⟩, fun hdistinct => ?_, fun name hname _ => ?_⟩
    · simp [hmem, hnew]
    · rw [symbols, List.map_append, List.nodup_append]
      refine ⟨hdistinct, by simp, ?_⟩
      rintro name hname other hother rfl
      obtain rfl : name = p.symbol := by simpa using hother
      exact hnew hname
    · obtain rfl := List.mem_singleton.1 hname
      simp [symbols]
  · next hcases =>
    refine ⟨⟨[], (List.append_nil _).symm, by simp⟩, fun h => h, fun name hname hother => ?_⟩
    obtain rfl := List.mem_singleton.1 hname
    obtain ⟨p, hp⟩ := exists_find? hother
    by_contra hnot
    exact hcases p (find?_eq_none.2 hnot) hp

theorem declareFrom_filled (m other : Module) (wanted : List String) :
    Filled m other wanted (m.declareFrom other wanted) := by
  induction wanted generalizing m with
  | nil => exact .nil m other
  | cons symbol rest ih =>
    rw [declareFrom_cons]
    exact (declareOne_filled m other symbol).append (ih _)

/-! ### Absorbing a definition -/

/-- The module once the declaration of a function is replaced by its procedure. -/
structure Absorbed (m : Module) (g : Function) (after : Module) : Prop where
  procedures : ∃ p added, Implements p g ∧
    after.procedures =
      m.procedures.filter (fun q => q.symbol != symbolOf g.prototype) ++ p :: added ∧
    ∀ q ∈ added, q.body = none ∧ q.symbol ∈ g.body.callees
  distinct : m.symbols.Nodup → after.symbols.Nodup
  covered : ∀ name ∈ g.body.callees, name ∈ after.symbols

theorem absorb_absorbed (m : Module) {other : Module} {g : Function} (h : Compiled other g) :
    Absorbed m g (m.absorb other (symbolOf g.prototype)) := by
  obtain ⟨p, declared, hother, hp, hdeclared⟩ := h.procedures
  have hfind : other.find? (symbolOf g.prototype) = some p := by
    simp [find?, hother, hp.symbol]
  let base : Module :=
    ⟨m.name, m.procedures.filter (fun q => q.symbol != symbolOf g.prototype) ++ [p]⟩
  have habsorb : m.absorb other (symbolOf g.prototype) = base.declareFrom other p.callees := by
    rw [absorb, hfind]
  have hown : symbolOf g.prototype ∈ base.symbols := by
    simp [base, symbols, hp.symbol]
  have hfilled := declareFrom_filled base other p.callees
  obtain ⟨added, hadded, hfrom⟩ := hfilled.procedures
  rw [habsorb]
  refine ⟨⟨p, added, hp, ?_, fun q hq => ?_⟩, fun hdistinct => ?_, fun name hname => ?_⟩
  · rw [hadded]
    simp [base]
  · -- The procedure itself is held already, so what is added is a declaration.
    obtain ⟨hin, hcalled, hnew⟩ := hfrom q hq
    rw [hother] at hin
    rcases List.mem_cons.1 hin with rfl | hin
    · exact absurd (hp.symbol ▸ hown) hnew
    · rcases hdeclared.new q hin with hnone | ⟨hbody, _, hmem⟩
      · cases hnone
      · exact ⟨hbody, hmem⟩
  · refine hfilled.distinct ?_
    simp only [base, symbols, List.map_append, List.nodup_append]
    refine ⟨hdistinct.sublist (List.filter_sublist.map _), by simp, ?_⟩
    rintro name hname other hother rfl
    obtain ⟨q, hq, rfl⟩ := List.mem_map.1 hname
    have hne := (List.mem_filter.1 hq).2
    have heq : q.symbol = symbolOf g.prototype := by simpa [hp.symbol] using hother
    simp [heq] at hne
  · refine hfilled.covered name ((hp.calls name).2 hname) ?_
    rcases hdeclared.covered name hname with rfl | hmem
    · exact mem_symbols.2 ⟨p, by simp [hother], hp.symbol⟩
    · obtain ⟨q, hq, hsymbol⟩ := List.mem_map.1 hmem
      exact mem_symbols.2 ⟨q, by simp [hother, hq], hsymbol⟩

/-- The module has a procedure with a body for the symbol. -/
def Bodied (m : Module) (name : String) : Prop :=
  ∃ p ∈ m.procedures, p.symbol = name ∧ p.body ≠ none

namespace Absorbed

variable {m after : Module} {g : Function}

theorem mem_cases (h : Absorbed m g after) {q : Procedure} (hq : q ∈ after.procedures) :
    q ∈ m.procedures ∨ Implements q g ∨ q.body = none ∧ q.symbol ∈ g.body.callees := by
  obtain ⟨p, added, hp, hprocedures, hadded⟩ := h.procedures
  rw [hprocedures] at hq
  rcases List.mem_append.1 hq with hq | hq
  · exact Or.inl (List.mem_filter.1 hq).1
  · rcases List.mem_cons.1 hq with rfl | hq
    · exact Or.inr (Or.inl hp)
    · exact Or.inr (Or.inr (hadded q hq))

theorem mem_of_ne (h : Absorbed m g after) {q : Procedure} (hq : q ∈ m.procedures)
    (hne : q.symbol ≠ symbolOf g.prototype) : q ∈ after.procedures := by
  obtain ⟨p, added, _, hprocedures, _⟩ := h.procedures
  rw [hprocedures]
  exact List.mem_append_left _ (List.mem_filter.2 ⟨hq, by simpa using hne⟩)

theorem bodied_self (h : Absorbed m g after) : after.Bodied (symbolOf g.prototype) := by
  obtain ⟨p, added, hp, hprocedures, _⟩ := h.procedures
  exact ⟨p, by simp [hprocedures], hp.symbol, hp.bodied⟩

theorem bodied (h : Absorbed m g after) {name : String} (hm : m.Bodied name) :
    after.Bodied name := by
  obtain ⟨p, hp, hsymbol, hbody⟩ := hm
  by_cases heq : name = symbolOf g.prototype
  · exact heq ▸ h.bodied_self
  · exact ⟨p, h.mem_of_ne hp (hsymbol ▸ heq), hsymbol, hbody⟩

theorem bodied_iff (h : Absorbed m g after) {name : String} :
    after.Bodied name ↔ m.Bodied name ∨ name = symbolOf g.prototype := by
  constructor
  · rintro ⟨q, hq, rfl, hbody⟩
    rcases h.mem_cases hq with hold | himplements | ⟨hnone, _⟩
    · exact Or.inl ⟨q, hold, rfl, hbody⟩
    · exact Or.inr himplements.symbol
    · exact absurd hnone hbody
  · rintro (hold | rfl)
    · exact h.bodied hold
    · exact h.bodied_self

theorem symbols_subset (h : Absorbed m g after) : m.symbols ⊆ after.symbols := by
  intro name hname
  obtain ⟨p, hp, hsymbol⟩ := mem_symbols.1 hname
  by_cases heq : name = symbolOf g.prototype
  · obtain ⟨q, hq, hown, _⟩ := h.bodied_self
    exact mem_symbols.2 ⟨q, hq, hown.trans heq.symm⟩
  · exact mem_symbols.2 ⟨p, h.mem_of_ne hp (hsymbol ▸ heq), hsymbol⟩

end Absorbed
end Module

/-! ### What holds while definitions are linked -/

theorem not_isWord_anonymousSymbol : ¬ IsWord anonymousSymbol := by
  intro h
  exact absurd (h.2 '_' (by decide)) (by decide)

theorem symbolOf_of_isWord {p : Prototype} (h : IsWord p.name) : symbolOf p = p.name := by
  have hnamed : p.isAnonymous = false := by
    rw [Prototype.isAnonymous]
    simpa using h.1
  simp [symbolOf, hnamed]

variable {depth : Nat} {s : Store Module} {f : Function} {m : Module}

theorem compile_eq_ok {runtime : Runtime} {signatures : Signatures} :
    compile runtime depth signatures f = .ok m ↔
      lower depth signatures f = .ok m ∧ runtime.complaint? m = none := by
  simp only [compile, bind_eq_ok]
  constructor
  · rintro ⟨lowered, hlowered, h⟩
    cases hcomplaint : runtime.complaint? lowered with
    | none =>
      rw [hcomplaint] at h
      cases h
      exact ⟨hlowered, hcomplaint⟩
    | some complaint =>
      rw [hcomplaint] at h
      cases h
  · rintro ⟨hlowered, hcomplaint⟩
    exact ⟨m, hlowered, by rw [hcomplaint]; rfl⟩

theorem symbolOf_of_kept (hs : s.Kept (lower depth)) {name : String} {d : Definition Module}
    (hd : s.definitions.get? name = some d) : symbolOf d.function.prototype = name := by
  have hkept := hs name d hd
  have hword : IsWord d.function.name := by
    rw [hkept.named]
    exact hkept.word
  exact (symbolOf_of_isWord hword).trans hkept.named

theorem compiled_of_kept (hs : s.Kept (lower depth)) {name : String} {d : Definition Module}
    (hd : s.definitions.get? name = some d) : Compiled d.body d.function := by
  obtain ⟨earlier, hbody, _⟩ := (hs name d hd).lowered
  exact compiled_of_lower (hs name d hd).regular hbody

theorem absorbed_of_kept (hs : s.Kept (lower depth)) {name : String} {d : Definition Module}
    (hd : s.definitions.get? name = some d) (m : Module) :
    m.Absorbed d.function (m.absorb d.body name) := by
  have habsorbed := m.absorb_absorbed (compiled_of_kept hs hd)
  rwa [symbolOf_of_kept hs hd] at habsorbed

/-- A module on the way from that of a function to the linked one. -/
structure Linked (s : Store Module) (f : Function) (m : Module) : Prop where
  distinct : m.symbols.Nodup
  genuine : ∀ p ∈ m.procedures, p.body = none ∨ Implements p f ∨
    ∃ d, s.definitions.get? p.symbol = some d ∧ Implements p d.function
  held : ∀ p ∈ m.procedures, ∀ name ∈ p.callees, name ∈ m.symbols
  reached : ∀ p ∈ m.procedures,
    p.symbol = symbolOf f.prototype ∨ Functions.Reaches s.functions f.body p.symbol
  rooted : ∃ p ∈ m.procedures, Implements p f

namespace Linked

theorem start (h : Compiled m f) : Linked s f m := by
  obtain ⟨p, declared, hprocedures, hp, hdeclared⟩ := h.procedures
  have hnew : ∀ q ∈ declared, q.body = none ∧ q.symbol ≠ symbolOf f.prototype ∧
      q.symbol ∈ f.body.callees := by
    intro q hq
    rcases hdeclared.new q hq with hnone | hq
    · cases hnone
    · exact hq
  refine ⟨?_, ?_, ?_, ?_, ⟨p, by simp [hprocedures], hp⟩⟩
  · rw [Module.symbols, hprocedures, List.map_cons, List.nodup_cons, hp.symbol]
    refine ⟨fun hmem => ?_, hdeclared.distinct List.nodup_nil⟩
    obtain ⟨q, hq, heq⟩ := List.mem_map.1 hmem
    exact (hnew q hq).2.1 heq
  · intro q hq
    rw [hprocedures] at hq
    rcases List.mem_cons.1 hq with rfl | hq
    · exact Or.inr (Or.inl hp)
    · exact Or.inl (hnew q hq).1
  · intro q hq name hname
    rw [hprocedures] at hq
    rcases List.mem_cons.1 hq with rfl | hq
    · rw [Module.symbols, hprocedures, List.map_cons]
      rcases hdeclared.covered name ((hp.calls name).1 hname) with rfl | hmem
      · exact hp.symbol ▸ List.mem_cons_self ..
      · exact List.mem_cons_of_mem _ hmem
    · simp [Procedure.callees, (hnew q hq).1] at hname
  · intro q hq
    rw [hprocedures] at hq
    rcases List.mem_cons.1 hq with rfl | hq
    · exact Or.inl hp.symbol
    · exact Or.inr ⟨q.symbol, (hnew q hq).2.2, .refl⟩

/-- What has no body yet is not the function that linking starts from. -/
theorem ne_root (h : Linked s f m) {p : Procedure} (hp : p ∈ m.procedures) (hbody : p.body = none) :
    p.symbol ≠ symbolOf f.prototype := by
  obtain ⟨q, hq, himplements⟩ := h.rooted
  intro hsymbol
  obtain rfl := Module.eq_of_symbol_eq h.distinct hp hq (hsymbol.trans himplements.symbol.symm)
  exact himplements.bodied hbody

/-- Absorbing the definition of a function that is reached. -/
theorem absorb (hs : s.Kept (lower depth)) (h : Linked s f m) {name : String}
    {d : Definition Module} (hd : s.definitions.get? name = some d)
    (hreached : Functions.Reaches s.functions f.body name) (hroot : name ≠ symbolOf f.prototype) :
    Linked s f (m.absorb d.body name) := by
  have habsorbed := absorbed_of_kept hs hd m
  have hsymbol := symbolOf_of_kept hs hd
  have hfunction : Ledger.get? s.functions name = some d.function := by
    rw [Store.get?_functions, hd]
    rfl
  refine ⟨habsorbed.distinct h.distinct, fun p hp => ?_, fun p hp callee hcallee => ?_,
    fun p hp => ?_, ?_⟩
  · rcases habsorbed.mem_cases hp with hp | hp | ⟨hp, _⟩
    · exact h.genuine p hp
    · refine Or.inr (Or.inr ⟨d, ?_, hp⟩)
      rw [hp.symbol, hsymbol]
      exact hd
    · exact Or.inl hp
  · rcases habsorbed.mem_cases hp with hp | hp | ⟨hp, _⟩
    · exact habsorbed.symbols_subset (h.held p hp callee hcallee)
    · exact habsorbed.covered callee ((hp.calls callee).1 hcallee)
    · simp [Procedure.callees, hp] at hcallee
  · rcases habsorbed.mem_cases hp with hp | hp | ⟨_, hcalled⟩
    · exact h.reached p hp
    · rw [hp.symbol, hsymbol]
      exact Or.inr hreached
    · obtain ⟨root, hroot, hpath⟩ := hreached
      exact Or.inr ⟨root, hroot, hpath.tail ⟨d.function, hfunction, hcalled⟩⟩
  · obtain ⟨p, hp, himplements⟩ := h.rooted
    refine ⟨p, habsorbed.mem_of_ne hp ?_, himplements⟩
    rw [hsymbol, himplements.symbol]
    exact hroot.symm

/-- Absorbing definitions that are reached gives their symbols bodies, and no other ones. -/
theorem absorbAll (hs : s.Kept (lower depth)) {symbols : List String} (h : Linked s f m)
    (hsymbols : ∀ name ∈ symbols, s.definitions.has name = true ∧
      Functions.Reaches s.functions f.body name ∧ name ≠ symbolOf f.prototype) :
    Linked s f (m.absorbAll s.definitions symbols) ∧
      ∀ name, (m.absorbAll s.definitions symbols).Bodied name ↔ m.Bodied name ∨ name ∈ symbols := by
  induction symbols generalizing m with
  | nil => exact ⟨h, fun name => by simp [Module.absorbAll]⟩
  | cons name rest ih =>
    obtain ⟨hhas, hreached, hroot⟩ := hsymbols name (List.mem_cons_self ..)
    obtain ⟨d, hd⟩ := Option.isSome_iff_exists.1 hhas
    have hstep : m.absorbAll s.definitions (name :: rest) =
        (m.absorb d.body name).absorbAll s.definitions rest := by
      simp only [Module.absorbAll, List.foldl_cons, hd]
    have habsorbed := absorbed_of_kept hs hd m
    have hone : ∀ other, (m.absorb d.body name).Bodied other ↔ m.Bodied other ∨ other = name := by
      intro other
      rw [habsorbed.bodied_iff, symbolOf_of_kept hs hd]
    obtain ⟨hlinked, hbodied⟩ := ih (h.absorb hs hd hreached hroot)
      fun other hother => hsymbols other (List.mem_cons_of_mem _ hother)
    rw [hstep]
    refine ⟨hlinked, fun other => ?_⟩
    rw [hbodied, hone, List.mem_cons, or_assoc]

end Linked

/-! ### Rounds of linking -/

theorem mem_pending {definitions : Ledger String (Definition Module)} {linked : List String}
    {name : String} :
    name ∈ m.pending definitions linked ↔
      ∃ p ∈ m.procedures, p.body = none ∧ definitions.has name = true ∧ name ∉ linked ∧
        p.symbol = name := by
  simp only [Module.pending, List.mem_map, List.mem_filter, Procedure.isDeclaration,
    Bool.and_eq_true, Bool.not_eq_true', Option.isNone_iff_eq_none]
  constructor
  · rintro ⟨p, ⟨hp, ⟨hbody, hhas⟩, hnew⟩, rfl⟩
    exact ⟨p, hp, hbody, hhas, by simpa using hnew, rfl⟩
  · rintro ⟨p, hp, hbody, hhas, hnew, rfl⟩
    exact ⟨p, ⟨hp, ⟨hbody, hhas⟩, by simpa using hnew⟩, rfl⟩

theorem nodup_pending {definitions : Ledger String (Definition Module)} {linked : List String}
    (h : m.symbols.Nodup) : (m.pending definitions linked).Nodup :=
  h.sublist (List.filter_sublist.map _)

/-- What is linked so far: the function that linking starts from and definitions, each once. They
are the symbols of the module that have a body. -/
structure Rounds (s : Store Module) (f : Function) (linked : List String) (m : Module) : Prop where
  module : Linked s f m
  distinct : linked.Nodup
  known : ∃ rest, linked = symbolOf f.prototype :: rest ∧
    ∀ name ∈ rest, s.definitions.has name = true
  bodied : ∀ name, m.Bodied name ↔ name ∈ linked

theorem Rounds.start (h : Compiled m f) : Rounds s f [m.name] m where
  module := .start h
  distinct := List.nodup_singleton _
  known := ⟨[], by rw [h.name], List.forall_mem_nil _⟩
  bodied name := by
    obtain ⟨p, declared, hprocedures, hp, hdeclared⟩ := h.procedures
    rw [h.name, List.mem_singleton]
    constructor
    · rintro ⟨q, hq, rfl, hbody⟩
      rw [hprocedures] at hq
      rcases List.mem_cons.1 hq with rfl | hq
      · exact hp.symbol
      · rcases hdeclared.new q hq with hnone | ⟨hnone, _⟩
        · cases hnone
        · exact absurd hnone hbody
    · rintro rfl
      exact ⟨p, by simp [hprocedures], hp.symbol, hp.bodied⟩

theorem Rounds.length_le {linked : List String} (h : Rounds s f linked m) :
    linked.length ≤ s.definitions.length + 1 := by
  obtain ⟨rest, rfl, hrest⟩ := h.known
  have hkeys : rest ⊆ s.definitions.keys := by
    intro name hname
    obtain ⟨d, hd⟩ := Option.isSome_iff_exists.1 (hrest name hname)
    exact Ledger.mem_keys_of_get? hd
  have hle := ((List.nodup_cons.1 h.distinct).2.subperm hkeys).length_le
  simpa [Ledger.keys] using hle

theorem Rounds.next (hs : s.Kept (lower depth)) {linked : List String} (h : Rounds s f linked m) :
    Rounds s f (linked ++ m.pending s.definitions linked)
      (m.absorbAll s.definitions (m.pending s.definitions linked)) := by
  have hsymbols : ∀ name ∈ m.pending s.definitions linked, s.definitions.has name = true ∧
      Functions.Reaches s.functions f.body name ∧ name ≠ symbolOf f.prototype := by
    intro name hname
    obtain ⟨p, hp, hbody, hhas, _, rfl⟩ := mem_pending.1 hname
    have hroot := h.module.ne_root hp hbody
    exact ⟨hhas, (h.module.reached p hp).resolve_left hroot, hroot⟩
  obtain ⟨hlinked, hbodied⟩ := h.module.absorbAll hs hsymbols
  refine ⟨hlinked, ?_, ?_, fun name => ?_⟩
  · refine List.nodup_append.2 ⟨h.distinct, nodup_pending h.module.distinct, ?_⟩
    rintro name hold other hother rfl
    obtain ⟨_, _, _, _, hfresh, _⟩ := mem_pending.1 hother
    exact hfresh hold
  · obtain ⟨rest, hlinked, hrest⟩ := h.known
    refine ⟨rest ++ m.pending s.definitions linked, ?_, fun name hname => ?_⟩
    · rw [← List.cons_append, ← hlinked]
    · rcases List.mem_append.1 hname with hname | hname
      · exact hrest name hname
      · exact (hsymbols name hname).1
  · rw [hbodied, h.bodied, List.mem_append]

/-- Where no definition is pending, declarations have none. -/
theorem Rounds.complete {linked : List String} (h : Rounds s f linked m)
    (hdone : m.pending s.definitions linked = []) :
    ∀ p ∈ m.procedures, p.body = none → s.definitions.has p.symbol = false := by
  intro p hp hbody
  by_contra hhas
  have hlinked : p.symbol ∈ linked := by
    by_contra hnew
    have hmem : p.symbol ∈ m.pending s.definitions linked :=
      mem_pending.2 ⟨p, hp, hbody, by simpa using hhas, hnew, rfl⟩
    rw [hdone] at hmem
    cases hmem
  obtain ⟨q, hq, hsymbol, hbodied⟩ := (h.bodied _).2 hlinked
  obtain rfl := Module.eq_of_symbol_eq h.module.distinct hq hp hsymbol
  exact hbodied hbody

/-- The loop of linking, round by round until no definition is pending. -/
inductive Links (definitions : Ledger String (Definition Module)) :
    List String → Module → List String → Module → Prop
  | done {linked : List String} {m : Module} (h : m.pending definitions linked = []) :
      Links definitions linked m linked m
  | round {linked final : List String} {m whole : Module} (h : m.pending definitions linked ≠ [])
      (rest : Links definitions (linked ++ m.pending definitions linked)
        (m.absorbAll definitions (m.pending definitions linked)) final whole) :
      Links definitions linked m final whole

theorem Links.rounds (hs : s.Kept (lower depth)) {linked final : List String} {whole : Module}
    (h : Links s.definitions linked m final whole) (hrounds : Rounds s f linked m) :
    Rounds s f final whole ∧ whole.pending s.definitions final = [] := by
  induction h with
  | done h => exact ⟨hrounds, h⟩
  | round _ _ ih => exact ih (hrounds.next hs)

/-- The rounds come to an end before the fuel does: each links a symbol more, and there are no more
of them than definitions and the module itself. -/
theorem links_linkRounds (hs : s.Kept (lower depth)) {fuel : Nat} {linked : List String}
    (h : Rounds s f linked m) (hfuel : s.definitions.length + 2 ≤ linked.length + fuel) :
    Links s.definitions linked m (Module.linkRounds s.definitions fuel linked m).1
      (Module.linkRounds s.definitions fuel linked m).2 := by
  induction fuel generalizing linked m with
  | zero =>
    have hle := h.length_le
    omega
  | succ fuel ih =>
    rw [Module.linkRounds]
    split
    · next hdone => exact .done hdone
    · next hpending =>
      have hpositive : 0 < (m.pending s.definitions linked).length :=
        List.length_pos_iff.2 hpending
      refine .round hpending (ih (h.next hs) ?_)
      rw [List.length_append]
      omega

theorem links_linkAll (hs : s.Kept (lower depth)) (h : Compiled m f) :
    Links s.definitions [m.name] m (m.linkAll s.definitions).1 (m.link s.definitions) := by
  refine links_linkRounds hs (.start h) ?_
  rw [List.length_singleton]
  omega

theorem link_complete (hs : s.Kept (lower depth)) (h : Compiled m f) :
    Linked s f (m.link s.definitions) ∧
      ∀ p ∈ (m.link s.definitions).procedures, p.body = none →
        s.definitions.has p.symbol = false := by
  obtain ⟨hrounds, hdone⟩ := (links_linkAll hs h).rounds hs (.start h)
  exact ⟨hrounds.module, hrounds.complete hdone⟩

end ScalarLang.IR
