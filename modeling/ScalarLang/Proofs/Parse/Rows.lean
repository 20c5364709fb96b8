import ScalarLang.Proofs.Parse.Budget
import ScalarLang.Proofs.Parse.Progress
import ScalarLang.Session.Event

/-!
# Rows of forms

What a loop over the forms of a source goes through: forms are completed one after the other, and
then the input ends or a form cannot be read. The loops that collect all forms and that look for the
first one both follow the row.
-/
namespace ScalarLang

/-- The kind of form that starts with a token. -/
def FormKind.ofToken (t : Token) : FormKind :=
  match t.kind with
  | .define => .definition
  | .external => .external
  | _ => .expression

namespace Parse

/-- From a reader on, forms are completed one after the other. Then comes the end of the input, or a
failure if there is one. -/
inductive Row (ops : OperatorTable) (depth : Nat) : Reader → List Form → Option Failure → Prop
  | done {r : Reader} {t : Token} (hc : r.current = some t) (ht : t.isEnd = true) :
      Row ops depth r [] none
  | failed {r after : Reader} {t : Token} {failure : Failure} (hc : r.current = some t)
      (ht : t.isEnd = false) (h : form? ops depth r = .error failure after) :
      Row ops depth r [] (some failure)
  | next {r middle : Reader} {t : Token} {found : Option Form} {forms : List Form}
      {stop : Option Failure} (hc : r.current = some t) (ht : t.isEnd = false)
      (h : form? ops depth r = .ok found middle) (hrest : Row ops depth middle forms stop) :
      Row ops depth r (found.toList ++ forms) stop

/-- The row of a reader in front of a source. Its first item may be a failure already. -/
inductive WholeRow (ops : OperatorTable) (depth : Nat) (r : Reader) :
    List Form → Option Failure → Prop
  | failed {failure : Failure} {after : Reader} (h : fetch r = .error failure after) :
      WholeRow ops depth r [] (some failure)
  | start {t : Token} {first : Reader} {forms : List Form} {stop : Option Failure}
      (h : fetch r = .ok t first) (hrow : Row ops depth first forms stop) :
      WholeRow ops depth r forms stop

variable {ops : OperatorTable} {depth : Nat} {r middle after : Reader} {t : Token}

/-! ### The form at a token -/

theorem form_end_eq (hc : r.current = some t) (ht : t.isEnd = true) :
    form? ops depth r = .ok none r := by
  rw [form?, step_bind_ok (start_of_some hc)]
  rw [Token.isEnd] at ht
  cases hkind : t.kind with
  | eof => rfl
  | _ =>
    rw [hkind] at ht
    cases ht

theorem form_separator_eq (hc : r.current = some t) (ht : t.isSymbol ";" = true) :
    form? ops depth r = (fetch >>= fun _ => pure none) r := by
  rw [form?, step_bind_ok (start_of_some hc)]
  simp only [Token.kind_of_isSymbol ht]
  rw [if_pos ht]

theorem form_kind_eq (hc : r.current = some t) (hend : t.isEnd = false)
    (ht : t.isSymbol ";" = false) :
    form? ops depth r = (some <$> (FormKind.ofToken t).read ops depth) r := by
  rw [form?, step_bind_ok (start_of_some hc), FormKind.ofToken, ht]
  rw [Token.isEnd] at hend
  cases hkind : t.kind with
  | eof =>
    rw [hkind] at hend
    cases hend
  | _ => rfl

/-! ### A form takes at least a token -/

theorem topLevel_ne_nil {ts kept : List Token} (h : TopLevel ops ts kept) : ts ≠ [] := by
  cases h with
  | definition => simp
  | external => simp
  | expression h =>
    obtain ⟨t, rest, rfl, _⟩ := h.starts
    simp
  | separator => simp

/-- A form that is read takes tokens, so fewer items are ahead afterwards. -/
theorem form_takes {found : Option Form} (hr : r.Standing) (hc : r.current = some t)
    (ht : t.isEnd = false) (h : form? ops depth r = .ok found middle) :
    middle.Standing ∧ middle.ahead.length < r.ahead.length := by
  obtain ⟨ts, kept, htop, hp, _⟩ := form_sound hr.inside.ends hc ht h
  have hlength := hp.length_ahead
  have hpos : 0 < ts.length := List.length_pos_of_ne_nil (topLevel_ne_nil htop)
  exact ⟨hr.passes hp, by omega⟩

theorem standing_of_fetch (hr : r.Inside) (h : fetch r = .ok t after) :
    after.Standing ∧ after.current = some t := by
  rcases hr.fetch_ok_cases h with ⟨rfl, _, hc⟩ | ⟨notes, rest, ha, rfl⟩
  · exact ⟨⟨hr, _, hc⟩, hc⟩
  · exact ⟨⟨hr.to_token ha, _, rfl⟩, rfl⟩

/-! ### The loop over all forms -/

theorem formsFrom_end_eq {fuel : Nat} (hc : r.current = some t) (ht : t.isEnd = true) :
    formsFrom ops depth (fuel + 1) r = .ok [] r := by
  rw [formsFrom, step_bind_ok (current_of_some hc), if_pos ht]
  rfl

theorem formsFrom_next_eq {fuel : Nat} (hc : r.current = some t) (ht : t.isEnd = false) :
    formsFrom ops depth (fuel + 1) r =
      (form? ops depth >>= fun found => (fun rest => found.toList ++ rest) <$>
        formsFrom ops depth fuel) r := by
  rw [formsFrom, step_bind_ok (current_of_some hc), ht]
  rfl

/-- The result of collecting forms up to the end or a failure. -/
def collected (forms : List Form) : Option Failure → Except Failure (List Form)
  | none => .ok forms
  | some failure => .error failure

theorem formsFrom_row (ops : OperatorTable) (depth : Nat) {fuel : Nat} (hr : r.Standing)
    (hfuel : r.ahead.length < fuel) :
    ∃ forms stop, Row ops depth r forms stop ∧
      (formsFrom ops depth fuel).result r = collected forms stop := by
  induction fuel generalizing r with
  | zero => exact absurd hfuel (Nat.not_lt_zero _)
  | succ fuel ih =>
    obtain ⟨t, hc⟩ := hr.current
    cases ht : t.isEnd with
    | true =>
      refine ⟨[], none, .done hc ht, ?_⟩
      rw [Parse.result, formsFrom_end_eq hc ht]
      rfl
    | false =>
      unfold Parse.result
      rw [formsFrom_next_eq hc ht]
      cases hform : form? ops depth r with
      | error failure after =>
        refine ⟨[], some failure, .failed hc ht hform, ?_⟩
        rw [step_bind_error hform]
        rfl
      | ok found middle =>
        rw [step_bind_ok hform]
        obtain ⟨hmiddle, hless⟩ := form_takes hr hc ht hform
        obtain ⟨forms, stop, hrow, hresult⟩ := ih hmiddle (by omega)
        refine ⟨_, stop, .next hc ht hform hrow, ?_⟩
        unfold Parse.result at hresult
        cases hrest : formsFrom ops depth fuel middle with
        | error failure after =>
          rw [hrest] at hresult
          rw [step_map_error hrest]
          cases stop with
          | none => cases hresult
          | some own => exact hresult
        | ok rest after =>
          rw [hrest] at hresult
          rw [step_map_ok hrest]
          cases stop with
          | none =>
            cases hresult
            rfl
          | some own => cases hresult

theorem all_row (ops : OperatorTable) (depth : Nat) (hr : r.Inside) :
    ∃ forms stop, WholeRow ops depth r forms stop ∧
      (all ops depth).result r = collected forms stop := by
  cases hfetch : fetch r with
  | error failure after =>
    refine ⟨[], some failure, .failed hfetch, ?_⟩
    rw [Parse.result, all, step_bind_error hfetch]
    rfl
  | ok t first =>
    obtain ⟨hfirst, _⟩ := standing_of_fetch hr hfetch
    obtain ⟨forms, stop, hrow, hresult⟩ :=
      formsFrom_row ops depth hfirst (Nat.lt_succ_self _)
    refine ⟨forms, stop, .start hfetch hrow, ?_⟩
    rw [Parse.result, all, step_bind_ok hfetch, step_bind_ok (rounds_eq first)]
    exact hresult

theorem wholeRow_of_all {forms : List Form} (hr : r.Inside)
    (h : (all ops depth).result r = .ok forms) : WholeRow ops depth r forms none := by
  obtain ⟨own, stop, hrow, hresult⟩ := all_row ops depth hr
  rw [h] at hresult
  cases stop with
  | none =>
    cases hresult
    exact hrow
  | some failure => cases hresult

theorem wholeRow_of_all_error {failure : Failure} (hr : r.Inside)
    (h : (all ops depth).result r = .error failure) :
    ∃ forms, WholeRow ops depth r forms (some failure) := by
  obtain ⟨own, stop, hrow, hresult⟩ := all_row ops depth hr
  rw [h] at hresult
  cases stop with
  | none => cases hresult
  | some other =>
    cases hresult
    exact ⟨own, hrow⟩

/-! ### Forms of a row are read -/

theorem reached_of_passes {file : String} {source : List Char} {ts : List Token}
    (hr : Reader.Reached file source r) (hp : r.Passes ts after) :
    Reader.Reached file source after := by
  induction hp with
  | nil => exact hr
  | cons _ ha _ ih => exact ih (.token hr (fetch_token ha))

theorem Row.read {file : String} {source : List Char} {forms : List Form} {stop : Option Failure}
    (h : Row ops depth r forms stop) (hr : Reader.Reached file source r) :
    ∀ form ∈ forms, form.Read := by
  induction h with
  | done => simp
  | failed => simp
  | @next r middle t found forms stop hc ht h _ ih =>
    obtain ⟨ts, kept, _, hp, _⟩ := form_sound hr.inside.ends hc ht h
    intro form hform
    rcases List.mem_append.1 hform with hfound | hrest
    · cases found with
      | none => cases hfound
      | some own =>
        cases List.mem_singleton.1 hfound
        exact ⟨ops, depth, file, source, r, middle, hr, h⟩
    · exact ih (reached_of_passes hr hp) form hrest

/-- Every form of a source that is read as a whole is read somewhere in it. -/
theorem read_of_all {file : String} {source : List Char} {forms : List Form}
    (h : (all ops depth).result (.ofSource file source) = .ok forms) :
    ∀ form ∈ forms, form.Read := by
  cases wholeRow_of_all (Reader.inside_ofSource file source) h with
  | start hfetch hrow => exact hrow.read (.token .start hfetch)

/-! ### The loop to the first form -/

theorem passSeparators_stop {fuel : Nat} (hc : r.current = some t) (ht : t.isSymbol ";" = false) :
    passSeparators fuel r = .ok () r := by
  cases fuel with
  | zero => rfl
  | succ fuel =>
    rw [passSeparators, step_bind_ok (current_of_some hc), ht]
    rfl

/-- From a reader that follows a row to the end of the input, separators are passed up to the first
form, or up to the end. -/
theorem Row.passSeparators {forms : List Form} (h : Row ops depth r forms none) (hr : r.Standing)
    {fuel : Nat} (hfuel : r.ahead.length < fuel) :
    ∃ middle, passSeparators fuel r = .ok () middle ∧
      ((forms = [] ∧ ∃ t, middle.current = some t ∧ t.isEnd = true) ∨
        ∃ form rest after, forms = form :: rest ∧
          form? ops depth middle = .ok (some form) after) := by
  generalize hstop : (none : Option Failure) = stop at h
  induction h generalizing fuel with
  | failed => cases hstop
  | @done r t hc ht =>
    have hkind : t.isSymbol ";" = false := by
      by_contra hsymbol
      rw [isEnd_of_isSymbol (Bool.not_eq_false _ ▸ hsymbol)] at ht
      cases ht
    exact ⟨r, passSeparators_stop hc hkind, Or.inl ⟨rfl, t, hc, ht⟩⟩
  | @next r middle t found forms stop hc ht h hrest ih =>
    obtain ⟨hmiddle, hless⟩ := form_takes hr hc ht h
    cases hsymbol : t.isSymbol ";" with
    | true =>
      obtain ⟨fuel, rfl⟩ : ∃ k, fuel = k + 1 := ⟨fuel - 1, by omega⟩
      have hfewer : middle.ahead.length < fuel := by omega
      rw [form_separator_eq hc hsymbol] at h
      obtain ⟨u, own, hfetch, hnone⟩ := step_bind_eq_ok.1 h
      cases hnone
      obtain ⟨final, hpass, hcases⟩ := ih hmiddle hfewer hstop
      refine ⟨final, ?_, hcases⟩
      rw [Parse.passSeparators, step_bind_ok (current_of_some hc), if_pos hsymbol,
        step_bind_ok hfetch]
      exact hpass
    | false =>
      refine ⟨r, passSeparators_stop hc hsymbol, Or.inr ?_⟩
      have hread := h
      rw [form_kind_eq hc ht hsymbol] at hread
      obtain ⟨form, _, rfl⟩ := step_map_eq_ok hread
      exact ⟨form, forms, middle, rfl, h⟩

theorem first_eq (ops : OperatorTable) (depth : Nat) {middle : Reader}
    (hfetch : fetch r = .ok t after)
    (hpass : Parse.passSeparators (after.ahead.length + 1) after = .ok () middle) :
    first ops depth r = (form? ops depth >>= fun found =>
      match found with
      | some form => pure form
      | none => fail .form) middle := by
  rw [first, step_bind_ok hfetch, step_bind_ok (rounds_eq after)]
  exact step_bind_ok hpass

/-- The first form of a row is the one that is looked for, and where there is none that is reported.
The two loops may have different budgets. -/
theorem WholeRow.first_eq {forms : List Form} {n k : Nat} (h : WholeRow ops n r forms none)
    (hr : r.Inside) (hk : ¬ Exhausted (first ops k r)) :
    (∀ form rest, forms = form :: rest → (first ops k).result r = .ok form) ∧
      (forms = [] → ∃ t, (first ops k).result r = .error (.unexpected .form t)) := by
  cases h with
  | @start t first _ _ hfetch hrow =>
    obtain ⟨hfirst, _⟩ := standing_of_fetch hr hfetch
    obtain ⟨middle, hpass, hcases⟩ := hrow.passSeparators hfirst (Nat.lt_succ_self _)
    have heq := Parse.first_eq ops k hfetch hpass
    rw [heq] at hk
    unfold Parse.result
    rw [heq]
    rcases hcases with ⟨rfl, u, hc, hu⟩ | ⟨form, rest, after, rfl, hform⟩
    · refine ⟨fun _ _ h => (List.cons_ne_nil _ _ h.symm).elim, fun _ => ⟨u, ?_⟩⟩
      rw [step_bind_ok (form_end_eq hc hu)]
      simp only [fail_of_some _ hc]
    · refine ⟨fun own others h => ?_, fun h => (List.cons_ne_nil _ _ h).elim⟩
      cases h
      have hn : ¬ Exhausted (form? ops n middle) := by
        rintro ⟨u, stop, hdeep⟩
        cases hform.symm.trans hdeep
      have hopen : ¬ Exhausted (form? ops k middle) := by
        rintro ⟨u, stop, hdeep⟩
        exact hk ⟨u, stop, step_bind_error hdeep⟩
      have hsame := form_eq_of_not_exhausted (fun _ => rfl) hn hopen
      rw [step_bind_ok (hsame.trans hform)]
      rfl

end Parse
end ScalarLang
