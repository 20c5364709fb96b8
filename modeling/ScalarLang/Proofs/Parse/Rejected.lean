import ScalarLang.Proofs.Parse.Lookahead
import ScalarLang.Proofs.Parse.Viable

/-!
# Forms are rejected at the first impossible token

The tokens in front of the one that a form is rejected at are a proper prefix of a form. That token
rules it out: if any row that goes on with it were a form, that row would be read, and up to the
token nothing differs.
-/
namespace ScalarLang

/-! ### The end of the input -/

section Rows

variable {ops : OperatorTable} {nt : Nonterminal} {ts heading kept : List Token}

theorem Derives.isEnd_eq_false (h : Derives ops nt ts kept) : ∀ t ∈ ts, t.isEnd = false := by
  have hsymbol : ∀ {t : Token} {text : String}, t.isSymbol text = true → t.isEnd = false :=
    Parse.isEnd_of_isSymbol
  induction h with
  | number h | name h => simp [Token.isEnd, h]
  | @emptyCall t left right name h hleft hright =>
    have ht : t.isEnd = false := by rw [Token.isEnd, h]
    simp [ht, hsymbol hleft, hsymbol hright]
  | @call t left right name ts kept h hleft _ hright ih =>
    have ht : t.isEnd = false := by rw [Token.isEnd, h]
    simpa [ht, hsymbol hleft, hsymbol hright, or_imp, forall_and] using ih
  | parenthesized hleft _ hright ih =>
    simpa [hsymbol hleft, hsymbol hright, or_imp, forall_and] using ih
  | noTail => simp
  | @tail op ts us kept kept' hop _ _ ih ihtail =>
    obtain ⟨text, hkind, _⟩ := hop
    have ht : op.isEnd = false := by rw [Token.isEnd, hkind]
    simpa [ht, or_imp, forall_and] using ⟨ih, ihtail⟩
  | expression _ _ ih ihtail => simpa [or_imp, forall_and] using ⟨ih, ihtail⟩
  | lastArgument _ ih => exact ih
  | argument _ hcomma _ ih ihrest =>
    simpa [hsymbol hcomma, or_imp, forall_and] using ⟨ih, ihrest⟩

theorem Heading.isEnd_eq_false (h : Heading heading) : ∀ t ∈ heading, t.isEnd = false := by
  cases h with
  | @mk t left right name names ts h hleft hnames _ hright =>
    have ht : t.isEnd = false := by rw [Token.isEnd, h]
    have hts : ∀ u ∈ ts, u.isEnd = false := by
      intro u hu
      have hkind : u.kind ∈ names.map TokenKind.identifier := by
        rw [← hnames]
        exact List.mem_map_of_mem hu
      obtain ⟨param, _, hparam⟩ := List.mem_map.1 hkind
      rw [Token.isEnd, ← hparam]
    simpa [ht, Parse.isEnd_of_isSymbol hleft, Parse.isEnd_of_isSymbol hright, or_imp, forall_and]
      using hts

/-- The end of the input is no part of a form. -/
theorem IsForm.isEnd_eq_false (h : IsForm ops ts) : ∀ t ∈ ts, t.isEnd = false := by
  obtain ⟨kept, htop, hkept⟩ := h
  cases htop with
  | @definition t heading ts kept ht hheading h =>
    have hend : t.isEnd = false := by rw [Token.isEnd, ht]
    simpa [hend, or_imp, forall_and] using ⟨hheading.isEnd_eq_false, h.isEnd_eq_false⟩
  | @external t heading ht hheading =>
    have hend : t.isEnd = false := by rw [Token.isEnd, ht]
    simpa [hend] using hheading.isEnd_eq_false
  | expression h => exact h.isEnd_eq_false
  | separator ht => exact absurd rfl hkept

end Rows

/-- An item without notes. -/
def Lexeme.ofToken (t : Token) : Lexeme := ⟨[], .token t⟩

namespace Parse

variable {ops : OperatorTable} {depth : Nat} {r first middle after : Reader} {t found : Token}
  {expected : Expectation}

/-! ### Rejected forms -/

/-- A row that is a form is read as one where it ends the input, so it is not rejected there. -/
theorem form_not_rejected (hops : ops.Reachable) {ts : List Token} {ending : Token}
    (hform : IsForm ops ts) (hp : r.Passes ts middle) (hc : middle.current = some ending)
    (hend : ending.isEnd = true) (hne : expected ≠ .lessNesting) :
    form? ops depth r ≠ .error (.unexpected expected found) after := by
  intro h
  obtain ⟨kept, htop, _⟩ := hform
  obtain ⟨_, _, _, _, hsettles, _⟩ :=
    form_of_topLevel hops htop .nil (by rwa [List.append_nil]) hc hend
  rcases hsettles.ok_or_exhausted depth with hok | ⟨u, stop, hdeep⟩
  · cases hok.symm.trans h
  · cases hdeep.symm.trans h
    exact hne rfl

theorem tokensOf_map (ts : List Token) : tokensOf (ts.map Lexeme.ofToken) = .ok ts := by
  induction ts with
  | nil => rfl
  | cons t ts ih => exact tokensOf_token [] t ih

/-- The reader, in front of other tokens instead, passes them up to the last. -/
theorem passes_instead (hc : r.current = some t) (ts : List Token) (ending : Token) :
    ∃ last, Reader.Passes { r with ahead := (ts ++ [ending]).map Lexeme.ofToken } (t :: ts) last ∧
      last.current = some ending := by
  have hinstead :
      Reader.current { r with ahead := (ts ++ [ending]).map Lexeme.ofToken } = some t := hc
  exact passes_of_tokensOf hinstead (tokensOf_map (ts ++ [ending])) rfl

/-- No form starts with the tokens in front of the one that a form is rejected at and that token. -/
theorem not_isForm_of_rejected (hops : ops.Reachable) (hr : r.Standing) {ts : List Token}
    (hp : r.Passes ts after) (hc : after.current = some found)
    (h : form? ops depth r = .error (.unexpected expected found) after)
    (hne : expected ≠ .lessNesting) (rest : List Token) : ¬ IsForm ops (ts ++ found :: rest) := by
  intro hform
  have hopen : found.isEnd = false := hform.isEnd_eq_false found (by simp)
  have hahead : after.ahead ≠ [] := by
    intro hnil
    have hends := (hr.inside.passes hp).endsOnce fun u hu => by
      cases hc.symm.trans hu
      exact hopen
    rw [hnil] at hends
    exact hends
  -- Put the rest of the row in place of what follows the token found, and then an end.
  obtain ⟨last, hprest, hlast⟩ := passes_instead hc rest ⟨.eof, "", none⟩
  have hrow := (hp.instead _).append hprest
  exact form_not_rejected hops hform hrow hlast rfl hne
    (form_rejected_whatever_follows hr h hahead _)

theorem start_of_none (hc : r.current = none) : start r = fetch r := by
  obtain ⟨current, ahead, ending⟩ := r
  cases hc
  rfl

theorem standing_of_start (hr : r.Inside) (h : start r = .ok t first) :
    first.Standing ∧ first.current = some t := by
  cases hc : r.current with
  | some u =>
    rw [start_of_some hc] at h
    cases h
    exact ⟨⟨hr, t, hc⟩, hc⟩
  | none =>
    rw [start_of_none hc] at h
    exact standing_of_fetch hr h

theorem start_ne_unexpected : start r ≠ .error (.unexpected expected found) after := by
  cases hc : r.current with
  | some u => simp [start_of_some hc]
  | none =>
    rw [start_of_none hc]
    exact fetch_ne_unexpected

/-- Unless nesting goes too deep, a form is rejected at the first token that rules it out, and the
report shows the place of that token. The tokens `ts` in front of it, from the first one on, are a
proper prefix of a form. No form starts with them and that token, and where it is the end of the
input they are no form themselves. -/
theorem form_is_rejected_at_first_impossible_token {file : String} {source : List Char}
    (hr : Reader.Reached file source r) (hops : ops.Reachable)
    (h : form? ops depth r = .error (.unexpected expected found) after)
    (hnesting : (Failure.unexpected expected found).diagnostic.code ≠ some "P004") :
    after.current = some found ∧
    (Failure.unexpected expected found).diagnostic.location = found.location ∧
    ∃ t first ts, start r = .ok t first ∧ first.Passes ts after ∧
      (∃ us, us ≠ [] ∧ IsForm ops (ts ++ us)) ∧
      (∀ rest, ¬ IsForm ops (ts ++ found :: rest)) ∧
      (found.isEnd = true → ¬ IsForm ops ts) := by
  have hne : expected ≠ .lessNesting := by
    rintro rfl
    exact hnesting rfl
  have hlocation : (Failure.unexpected expected found).diagnostic.location = found.location := by
    cases expected <;> rfl
  rcases step_bind_eq_error h with hreject | ⟨t, first, hstart, hrest⟩
  · exact absurd hreject start_ne_unexpected
  · obtain ⟨hfirst, hc⟩ := standing_of_start hr.inside hstart
    have hreject : form? ops depth first = .error (.unexpected expected found) after := by
      rw [form?, step_bind_ok (start_of_some hc)]
      exact hrest
    have hfound : after.current = some found := by
      obtain ⟨_, hstops⟩ := (form_advances ops depth first hfirst).error _ after hreject
      cases hstops with
      | token _ hcurrent => exact hcurrent
    obtain ⟨ts, us, hp, hus, hform⟩ := form_halts hfirst.inside.ends hc hreject hne
    refine ⟨hfound, hlocation, t, first, ts, hstart, hp, ⟨us, hus, hform⟩, ?_, ?_⟩
    · exact not_isForm_of_rejected hops hfirst hp hfound hreject hne
    · intro hend hwhole
      exact form_not_rejected hops hwhole hp hfound hend hne hreject

/-- The second parameter of a prototype, where only its name rules it out. -/
theorem form_is_rejected_at_first_impossible_token_repeated_parameter :
    let r := Reader.ofSource "" "def f(x x) x".toList
    let found : Token := ⟨.identifier "x", "x", some ⟨"", 1, 9, 8⟩⟩
    ∃ after, form? .standard 9 r = .error (.unexpected (.newParameter "x") found) after ∧
      ∃ t first ts, start r = .ok t first ∧ first.Passes ts after ∧
        (∃ us, us ≠ [] ∧ IsForm .standard (ts ++ us)) ∧
        ∀ rest, ¬ IsForm .standard (ts ++ found :: rest) := by
  intro r found
  have hresult : (form? .standard 9).result r = .error (.unexpected (.newParameter "x") found) := by
    cbv
  unfold Parse.result at hresult
  cases hform : form? .standard 9 r with
  | ok form after =>
    rw [hform] at hresult
    cases hresult
  | error failure after =>
    rw [hform] at hresult
    obtain rfl : failure = .unexpected (.newParameter "x") found := Except.error.inj hresult
    have hr : Reader.Reached "" "def f(x x) x".toList r := .start
    obtain ⟨_, _, t, first, ts, hstart, hp, hprefix, hnone, _⟩ :=
      form_is_rejected_at_first_impossible_token hr .standard hform
        (show some "P003" ≠ some "P004" by decide)
    exact ⟨after, rfl, t, first, ts, hstart, hp, hprefix, hnone⟩

end Parse
end ScalarLang
