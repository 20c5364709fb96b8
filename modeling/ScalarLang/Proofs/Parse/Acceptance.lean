import ScalarLang.Proofs.Parse.Completeness
import ScalarLang.Proofs.Parse.Grammar

/-!
# Derivable sources are read

Every row of tokens that the grammar derives is read as forms. Expressions are taken as long as they
can be, which never stands in the way of what follows.
-/
namespace ScalarLang.Parse

variable {ops : OperatorTable} {r middle after : Reader} {t right next : Token}

/-! ### Prototypes -/

theorem parameters_eq {ts : List Token} {names done : List String} {fuel : Nat}
    (hnames : ts.map Token.kind = names.map TokenKind.identifier)
    (hdistinct : (done ++ names).Nodup) (hp : r.Passes (t :: ts) after)
    (hc : after.current = some right) (hright : right.isSymbol ")" = true)
    (hfuel : ts.length < fuel) : parameters fuel done r = .ok (done ++ names) after := by
  induction ts generalizing names done r t fuel with
  | nil =>
    obtain ⟨fuel, rfl⟩ : ∃ k, fuel = k + 1 := ⟨fuel - 1, by omega⟩
    obtain rfl : names = [] := by simpa using hnames.symm
    obtain ⟨next, hfetch, hnext⟩ := hp.fetch_single
    cases hc.symm.trans hnext
    rw [parameters, step_bind_ok hfetch, List.append_nil]
    simp only [Token.kind_of_isSymbol hright]
    rfl
  | cons u us ih =>
    obtain ⟨fuel, rfl⟩ : ∃ k, fuel = k + 1 := ⟨fuel - 1, by omega⟩
    cases names with
    | nil => cases hnames
    | cons name names =>
      simp only [List.map_cons, List.cons.injEq] at hnames
      obtain ⟨next, middle, hfetch, hnext, hus⟩ := hp.fetch_eq
      cases hus.current_eq.symm.trans hnext
      have hnew : name ∉ done := by
        intro hmem
        exact (List.nodup_append.1 hdistinct).2.2 name hmem name (List.mem_cons_self ..) rfl
      have hmore : (done ++ [name] ++ names).Nodup := by
        rw [List.append_assoc]
        exact hdistinct
      have hless : us.length < fuel := by
        rw [List.length_cons] at hfuel
        omega
      have hrest := ih hnames.2 hmore hus hless
      rw [parameters, step_bind_ok hfetch]
      simp only [hnames.1, if_neg hnew, hrest, List.append_assoc, List.singleton_append]

theorem prototype_eq {name : String} {names : List String} {ts : List Token}
    (h : t.kind = .identifier name) {left : Token} (hleft : left.isSymbol "(" = true)
    (hnames : ts.map Token.kind = names.map TokenKind.identifier) (hdistinct : names.Nodup)
    (hright : right.isSymbol ")" = true) (hp : r.Passes (t :: left :: (ts ++ [right])) after) :
    prototype r = .ok ⟨name, names, t.location⟩ after := by
  have hpasses : r.Passes ([t] ++ ((left :: ts) ++ [right])) after := hp
  obtain ⟨second, ht, hpasses⟩ := hpasses.split
  obtain ⟨third, hts, hclose⟩ := hpasses.split
  obtain ⟨_, hfetch, _⟩ := ht.fetch_single
  obtain ⟨_, hend, _⟩ := hclose.fetch_single
  have hlength := hts.length_ahead
  have hparams := parameters_eq hnames (List.nil_append names ▸ hdistinct) hts
    hclose.current_eq hright (show ts.length < second.ahead.length + 1 by
      rw [List.length_cons] at hlength
      omega)
  rw [prototype, step_bind_ok (current_of_some ht.current_eq)]
  simp only [h]
  rw [step_bind_ok hfetch, step_bind_ok (require_of_isSymbol _ hts.current_eq hleft),
    step_bind_ok (rounds_eq second), step_bind_ok hparams,
    step_bind_ok (require_of_isSymbol _ hclose.current_eq hright), step_bind_ok hend]
  rfl

theorem prototype_of_heading {heading : List Token} (h : Heading heading)
    (hp : r.Passes heading after) : ∃ p, prototype r = .ok p after := by
  cases h with
  | mk h hleft hnames hdistinct hright =>
    exact ⟨_, prototype_eq h hleft hnames hdistinct hright hp⟩

/-! ### Forms -/

theorem start_of_some (h : r.current = some t) : start r = .ok t r := by
  obtain ⟨token, ahead, ending⟩ := r
  change token = _ at h
  subst h
  rfl

theorem form_of_separator (hp : r.Passes [t] after) (ht : t.isSymbol ";" = true) :
    Settles (form? ops) r none after := by
  obtain ⟨_, hfetch, _⟩ := hp.fetch_single
  refine Settles.after_ok (start_of_some hp.current_eq) ?_
  simp only [Token.kind_of_isSymbol ht, ht, if_true]
  refine Settles.after_ok hfetch ?_
  exact Settles.of_ok fun _ => rfl

theorem form_of_external {start : Reader} {p : Prototype} (ht : t.kind = .external)
    (hkeyword : r.Passes [t] start) (hproto : prototype start = .ok p after) :
    Settles (form? ops) r (some (.external p)) after := by
  obtain ⟨_, hfetch, _⟩ := hkeyword.fetch_single
  refine Settles.after_ok (start_of_some hkeyword.current_eq) ?_
  simp only [ht]
  refine Settles.map (Settles.map ?_)
  exact Settles.after_ok hfetch (Settles.of_ok fun _ => hproto)

theorem form_of_definition {start : Reader} {p : Prototype} {e : Expr} (ht : t.kind = .define)
    (hkeyword : r.Passes [t] start) (hproto : prototype start = .ok p middle)
    (he : Settles (expression ops) middle e after) :
    Settles (form? ops) r (some (.function ⟨p, e⟩)) after := by
  obtain ⟨_, hfetch, _⟩ := hkeyword.fetch_single
  refine Settles.after_ok (start_of_some hkeyword.current_eq) ?_
  simp only [ht]
  refine Settles.map (Settles.map ?_)
  refine Settles.after_ok hfetch (Settles.after_ok hproto ?_)
  refine he.bind ?_
  exact Settles.of_ok fun _ => rfl

theorem form_of_expression {e : Expr} (hc : r.current = some t) (ht : t.Opens)
    (he : Settles (expression ops) r e after) :
    Settles (form? ops) r (some (.function ⟨⟨"", [], t.location⟩, e⟩)) after := by
  have hbare : Settles (bareExpression ops) r ⟨⟨"", [], t.location⟩, e⟩ after := by
    refine Settles.after_ok (current_of_some hc) (he.bind ?_)
    exact Settles.of_ok fun _ => rfl
  have hsymbol : t.isSymbol ";" = false := ht.isSymbol_eq_false (by decide)
  refine Settles.after_ok (start_of_some hc) ?_
  rcases ht with ⟨name, ht⟩ | ⟨value, ht⟩ | ht
  · simp only [ht, hsymbol, Bool.false_eq_true, if_false]
    exact hbare.map.map
  · simp only [ht, hsymbol, Bool.false_eq_true, if_false]
    exact hbare.map.map
  · simp only [Token.kind_of_isSymbol ht, hsymbol, Bool.false_eq_true, if_false]
    exact hbare.map.map

/-- A form that starts with a keyword and a prototype. -/
theorem prototype_of_keyword {heading : List Token} (h : Heading heading)
    (hp : r.Passes (t :: heading) after) :
    ∃ start p, r.Passes [t] start ∧ prototype start = .ok p after := by
  have hpasses : r.Passes ([t] ++ heading) after := hp
  obtain ⟨start, hkeyword, hheading⟩ := hpasses.split
  obtain ⟨p, hproto⟩ := prototype_of_heading h hheading
  exact ⟨start, p, hkeyword, hproto⟩

/-! ### Whole sources -/

theorem formsFrom_end {fuel : Nat} (hc : r.current = some t) (ht : t.isEnd = true) :
    Settles (fun depth => formsFrom ops depth (fuel + 1)) r [] r := by
  refine Settles.after_ok (current_of_some hc) ?_
  simp only [ht, if_true]
  exact Settles.of_ok fun _ => rfl

theorem formsFrom_step {fuel : Nat} {found : Option Form} {forms : List Form}
    (hc : r.current = some t) (ht : t.isEnd = false) (h : Settles (form? ops) r found middle)
    (hrest : Settles (fun depth => formsFrom ops depth fuel) middle forms after) :
    Settles (fun depth => formsFrom ops depth (fuel + 1)) r (found.toList ++ forms) after := by
  refine Settles.after_ok (current_of_some hc) ?_
  simp only [ht, Bool.false_eq_true, if_false]
  refine h.bind (hrest.bind ?_)
  exact Settles.of_ok fun _ => rfl

/-- The end of the input does not go on with an expression. -/
theorem passesTo_end (ops : OperatorTable) {ts : List Token} {ending : Token}
    (hp : r.Passes ts after) (hc : after.current = some ending) (hend : ending.isEnd = true) :
    r.PassesTo ts ending after ∧ ¬ ops.Joins ending := by
  have hkind : ending.kind = .eof := by
    unfold Token.isEnd at hend
    split at hend
    · assumption
    · cases hend
  refine ⟨⟨hp, hc, fun _ => ?_⟩, not_joins_of_kind (by simp [hkind])⟩
  rw [Token.isSymbol, hkind]

/-- What follows a longest expression is the next form or the end of the source, and neither goes on
with the expression. -/
theorem passesTo_of_program (hops : ops.Reachable) {ts us kept : List Token} {ending : Token}
    (hus : Program ops us kept) (hapart : EndsInName ts → ∀ t ∈ us.head?, t.isSymbol "(" = false)
    (hts : r.Passes ts middle) (hp : middle.Passes us after) (hc : after.current = some ending)
    (hend : ending.isEnd = true) : ∃ next, r.PassesTo ts next middle ∧ ¬ ops.Joins next := by
  cases us with
  | nil =>
    cases hp
    exact ⟨ending, passesTo_end ops hts hc hend⟩
  | cons t us =>
    exact ⟨t, ⟨hts, hp.current_eq, fun hends => hapart hends t rfl⟩, hus.starts hops t rfl⟩

theorem expression_of_program (hops : ops.Reachable) {ts us kept kept' : List Token}
    {ending : Token} (h : Derives ops .expression ts kept) (hus : Program ops us kept')
    (hp : r.Passes (ts ++ us) after) (hc : after.current = some ending)
    (hend : ending.isEnd = true) :
    ∃ e middle vs k, Settles (expression ops) r e middle ∧ Program ops vs k ∧
      middle.Passes vs after ∧ vs.length ≤ us.length := by
  obtain ⟨us₁, us₂, k₁, k₂, rfl, hlong, hprogram, hapart⟩ := hus.absorb hops h
  rw [← List.append_assoc] at hp
  obtain ⟨middle, hts, hrest⟩ := hp.split
  obtain ⟨e, he⟩ := hlong.readable
  obtain ⟨next, hto, hno⟩ := passesTo_of_program hops hprogram hapart hts hrest hc hend
  refine ⟨e, middle, us₂, k₂, ?_, hprogram, hrest, by simp⟩
  exact phraseSettles_of_reading hops he r next middle hto hno

theorem form_of_topLevel (hops : ops.Reachable) {ts us kept kept' : List Token} {ending : Token}
    (h : TopLevel ops ts kept) (hus : Program ops us kept') (hp : r.Passes (ts ++ us) after)
    (hc : after.current = some ending) (hend : ending.isEnd = true) :
    ∃ found middle vs k, Settles (form? ops) r found middle ∧ Program ops vs k ∧
      middle.Passes vs after ∧ vs.length < (ts ++ us).length := by
  cases h with
  | @definition t heading ts _ ht hheading h =>
    have hpasses : r.Passes (t :: heading ++ (ts ++ us)) after := by simpa using hp
    obtain ⟨second, hhead, hbody⟩ := hpasses.split
    obtain ⟨e, middle, vs, k, he, hvs, hrest, hle⟩ := expression_of_program hops h hus hbody hc hend
    obtain ⟨start, p, hkeyword, hproto⟩ := prototype_of_keyword hheading hhead
    refine ⟨_, middle, vs, k, form_of_definition ht hkeyword hproto he, hvs, hrest, ?_⟩
    simp only [List.length_append, List.length_cons]
    omega
  | external ht hheading =>
    obtain ⟨middle, hhead, hrest⟩ := hp.split
    obtain ⟨start, p, hkeyword, hproto⟩ := prototype_of_keyword hheading hhead
    refine ⟨_, middle, us, _, form_of_external ht hkeyword hproto, hus, hrest, ?_⟩
    simp only [List.length_append, List.length_cons]
    omega
  | expression h =>
    obtain ⟨t, rest, rfl, ht⟩ := h.starts
    obtain ⟨e, middle, vs, k, he, hvs, hrest, hle⟩ := expression_of_program hops h hus hp hc hend
    refine ⟨_, middle, vs, k, form_of_expression hp.current_eq ht he, hvs, hrest, ?_⟩
    simp only [List.length_append, List.length_cons]
    omega
  | separator ht =>
    obtain ⟨middle, hhead, hrest⟩ := hp.split
    exact ⟨none, middle, us, _, form_of_separator hhead ht, hus, hrest, by simp⟩

theorem formsFrom_of_program (hops : ops.Reachable) {ts kept : List Token} {ending : Token}
    {fuel : Nat} (h : Program ops ts kept) (hp : r.Passes ts after)
    (hc : after.current = some ending) (hend : ending.isEnd = true) (hfuel : ts.length < fuel) :
    ∃ forms, Settles (fun depth => formsFrom ops depth fuel) r forms after := by
  -- Every form takes at least a token, so the rounds suffice.
  induction hlength : ts.length using Nat.strong_induction_on
    generalizing ts kept r fuel with
  | _ n ih =>
    obtain ⟨fuel, rfl⟩ : ∃ k, fuel = k + 1 := ⟨fuel - 1, by omega⟩
    cases h with
    | nil =>
      cases hp
      exact ⟨[], formsFrom_end hc hend⟩
    | cons htop hrest =>
      obtain ⟨found, middle, vs, k, hfound, hvs, hpvs, hless⟩ :=
        form_of_topLevel hops htop hrest hp hc hend
      have hvsfuel : vs.length < fuel := by omega
      obtain ⟨forms, hforms⟩ := ih vs.length (by omega) hvs hpvs hvsfuel rfl
      obtain ⟨t, rest, rfl, _, ht⟩ := htop.starts hops
      exact ⟨_, formsFrom_step hp.current_eq ht hfound hforms⟩

end ScalarLang.Parse
