import ScalarLang.Proofs.Parse.Lookahead

/-!
# What a rejected form could have become

Where a form is rejected, the tokens that were passed could have gone on to a form. Each production
passes the beginning of a row that its nonterminal derives, whatever encloses it; what it has begun
is closed by the parenthesis or the operand that is missing.
-/
namespace ScalarLang

/-! ### Forms as rows of tokens -/

/-- The row is a form. A separator keeps nothing, and it is no form. -/
def IsForm (ops : OperatorTable) (ts : List Token) : Prop :=
  ∃ kept, TopLevel ops ts kept ∧ kept ≠ []

section Rows

variable {ops : OperatorTable} {nt : Nonterminal} {ts heading kept : List Token} {t : Token}

theorem Derives.kept_ne_nil (h : Derives ops nt ts kept) (hne : nt ≠ .tail) : kept ≠ [] := by
  induction h with
  | noTail | tail _ _ _ => exact absurd rfl hne
  | number | name | emptyCall | call | argument => simp
  | parenthesized _ _ _ ih | lastArgument _ ih => exact ih (by simp)
  | expression _ _ ih _ => simp [ih (by simp)]

theorem Derives.isForm (h : Derives ops .expression ts kept) : IsForm ops ts :=
  ⟨kept, .expression h, h.kept_ne_nil (by simp)⟩

theorem isForm_external (ht : t.kind = .external) (h : Heading heading) :
    IsForm ops (t :: heading) :=
  ⟨t :: heading, .external ht h, List.cons_ne_nil t heading⟩

theorem isForm_definition (ht : t.kind = .define) (hheading : Heading heading)
    (h : Derives ops .expression ts kept) : IsForm ops (t :: (heading ++ ts)) :=
  ⟨t :: (heading ++ kept), .definition ht hheading h, List.cons_ne_nil t _⟩

end Rows

namespace Parse

variable {ops : OperatorTable} {depth : Nat} {r first opened middle after : Reader}
  {t left comma found : Token} {expected : Expectation} {spelled : List TokenKind}

/-! ### Steps that reject a token -/

section Rejecting

variable {α β : Type} {wanted : Expectation} {text : String}

theorem fail_eq_unexpected
    (h : (fail wanted : Parse α) r = .error (.unexpected expected found) after) :
    expected = wanted ∧ after = r := by
  obtain ⟨token, ahead, ending⟩ := r
  cases token with
  | none => cases h
  | some t =>
    cases h
    exact ⟨rfl, rfl⟩

/-- Looking at the current token rejects nothing. -/
theorem current_bind_unexpected {f : Token → Parse β}
    (h : (current >>= f) r = .error (.unexpected expected found) after) :
    ∃ t, r.current = some t ∧ f t r = .error (.unexpected expected found) after := by
  obtain ⟨token, ahead, ending⟩ := r
  cases token with
  | none => cases h
  | some t => exact ⟨t, rfl, h⟩

/-- Fetching rejects no token; what it can fail at is a malformed literal. -/
theorem fetch_ne_unexpected : fetch r ≠ .error (.unexpected expected found) after := by
  obtain ⟨token, ahead, ending⟩ := r
  intro h
  cases ahead with
  | nil => cases h
  | cons lexeme rest =>
    obtain ⟨notes, item⟩ := lexeme
    cases item with
    | token t => cases h
    | malformed fault => cases h

theorem fetch_bind_unexpected {f : Token → Parse β}
    (h : (fetch >>= f) r = .error (.unexpected expected found) after) :
    ∃ t next, fetch r = .ok t next ∧ f t next = .error (.unexpected expected found) after :=
  (step_bind_eq_error h).resolve_left fetch_ne_unexpected

theorem require_bind_unexpected {f : Unit → Parse β}
    (h : (require text wanted >>= f) r = .error (.unexpected expected found) after) :
    after = r ∨ ∃ t, r.current = some t ∧ t.isSymbol text = true ∧
      f () r = .error (.unexpected expected found) after := by
  rcases step_bind_eq_error h with hrequire | ⟨⟨⟩, middle, hrequire, hrest⟩
  · obtain ⟨t, _, htest⟩ := current_bind_unexpected hrequire
    by_cases hsymbol : t.isSymbol text = true
    · rw [if_pos hsymbol] at htest
      cases htest
    · rw [if_neg hsymbol] at htest
      exact Or.inl (fail_eq_unexpected htest).2
  · obtain ⟨rfl, t, hc, hsymbol⟩ := require_eq_ok hrequire
    exact Or.inr ⟨t, hc, hsymbol, hrest⟩

end Rejecting

/-! ### Rows that could have gone on -/

/-- The reader passes the beginning of a derivable row, or all of it. -/
def Begins (ops : OperatorTable) (nt : Nonterminal) (r after : Reader) : Prop :=
  ∃ ts us kept, r.Passes ts after ∧ Derives ops nt (ts ++ us) kept

/-- The reader passes the beginning of a derivable row, which does not end there. -/
def Unfinished (ops : OperatorTable) (nt : Nonterminal) (r after : Reader) : Prop :=
  ∃ ts us kept, r.Passes ts after ∧ us ≠ [] ∧ Derives ops nt (ts ++ us) kept

/-- Where the step rejects a token for another reason than nesting, it has passed the beginning of a
derivable row. -/
def Halts (ops : OperatorTable) (nt : Nonterminal) (step : Parse Expr) : Prop :=
  ∀ r expected found after, r.Ends → step r = .error (.unexpected expected found) after →
    expected ≠ .lessNesting → Unfinished ops nt r after

/-- Any name completes an expression that has not started. -/
theorem derives_x (ops : OperatorTable) :
    Derives ops .primary [.ofName "x"] [.ofName "x"] := .name rfl

theorem closing_isSymbol : (Token.ofSymbol ")").isSymbol ")" = true := rfl

theorem Yields.begins {nt : Nonterminal} (h : Yields ops nt r spelled after) :
    Begins ops nt r after := by
  obtain ⟨ts, kept, hts, hp, _⟩ := h
  exact ⟨ts, [], kept, hp, by rwa [List.append_nil]⟩

theorem Unfinished.begins {nt : Nonterminal} (h : Unfinished ops nt r after) :
    Begins ops nt r after := by
  obtain ⟨ts, us, kept, hp, _, hts⟩ := h
  exact ⟨ts, us, kept, hp, hts⟩

theorem unfinished_operand (ops : OperatorTable) (r : Reader) : Unfinished ops .primary r r :=
  ⟨[], [.ofName "x"], _, .nil r, by simp, derives_x ops⟩

theorem Begins.parenthesized (hleft : left.isSymbol "(" = true) (hopen : r.Passes [left] first)
    (h : Begins ops .expression first after) : Unfinished ops .primary r after := by
  obtain ⟨ts, us, kept, hp, hts⟩ := h
  have hwhole := Derives.parenthesized hleft hts closing_isSymbol
  refine ⟨left :: ts, us ++ [.ofSymbol ")"], kept, hopen.append hp, by simp, ?_⟩
  simpa using hwhole

theorem Begins.call {name : String} (ht : t.kind = .identifier name)
    (hname : r.Passes [t] first) (hleft : left.isSymbol "(" = true)
    (hopen : first.Passes [left] opened) (h : Begins ops .arguments opened after) :
    Unfinished ops .primary r after := by
  obtain ⟨ts, us, kept, hp, hts⟩ := h
  have hwhole := Derives.call ht hleft hts closing_isSymbol
  refine ⟨t :: left :: ts, us ++ [.ofSymbol ")"], t :: left :: (kept ++ [.ofSymbol ")"]),
    hname.append (hopen.append hp), by simp, ?_⟩
  simpa using hwhole

theorem Begins.lastArgument (h : Begins ops .expression r after) :
    Begins ops .arguments r after := by
  obtain ⟨ts, us, kept, hp, hts⟩ := h
  exact ⟨ts, us, kept, hp, .lastArgument hts⟩

theorem Begins.argument (hyields : Yields ops .expression r spelled middle)
    (hcomma : comma.isSymbol "," = true) (hp : middle.Passes [comma] opened)
    (h : Begins ops .arguments opened after) : Begins ops .arguments r after := by
  obtain ⟨ts, kept, hts, hpts, _⟩ := hyields
  obtain ⟨us, vs, kept', hpus, hus⟩ := h
  have hwhole := Derives.argument hts hcomma hus
  refine ⟨ts ++ comma :: us, vs, kept ++ comma :: kept', hpts.append (hp.append hpus), ?_⟩
  simpa using hwhole

theorem Unfinished.operand {op : Token} (hop : ops.Joins op) (hp : r.Passes [op] first)
    (h : Unfinished ops .primary first after) : Unfinished ops .tail r after := by
  obtain ⟨ts, us, kept, hpts, hne, hts⟩ := h
  have hwhole := Derives.tail hop hts .noTail
  rw [List.append_nil, List.append_nil] at hwhole
  exact ⟨op :: ts, us, op :: kept, hp.append hpts, hne, hwhole⟩

theorem Unfinished.tail_append (hyields : Yields ops .tail r spelled middle)
    (h : Unfinished ops .tail middle after) : Unfinished ops .tail r after := by
  obtain ⟨ts, kept, hts, hpts, _⟩ := hyields
  obtain ⟨us, vs, kept', hpus, hne, hus⟩ := h
  have hwhole := hts.tail_append hus
  rw [← List.append_assoc] at hwhole
  exact ⟨ts ++ us, vs, kept ++ kept', hpts.append hpus, hne, hwhole⟩

theorem Unfinished.first_operand (h : Unfinished ops .primary r after) :
    Unfinished ops .expression r after := by
  obtain ⟨ts, us, kept, hp, hne, hts⟩ := h
  have hwhole := Derives.expression hts .noTail
  rw [List.append_nil] at hwhole
  exact ⟨ts, us, _, hp, hne, hwhole⟩

theorem Unfinished.expression (hyields : Yields ops .primary r spelled middle)
    (h : Unfinished ops .tail middle after) : Unfinished ops .expression r after := by
  obtain ⟨ts, kept, hts, hpts, _⟩ := hyields
  obtain ⟨us, vs, kept', hpus, hne, hus⟩ := h
  have hwhole := Derives.expression hts hus
  rw [← List.append_assoc] at hwhole
  exact ⟨ts ++ us, vs, kept ++ kept', hpts.append hpus, hne, hwhole⟩

/-! ### Expressions -/

section Expressions

variable {inner : Parse Expr}

theorem parenthesized_halts (hsound : Sound ops .expression inner)
    (hinner : Halts ops .expression inner) (hr : r.Ends) (hc : r.current = some left)
    (hleft : left.isSymbol "(" = true)
    (h : parenthesized inner r = .error (.unexpected expected found) after)
    (hne : expected ≠ .lessNesting) : Unfinished ops .primary r after := by
  obtain ⟨_, first, hfetch, h⟩ := fetch_bind_unexpected h
  have hopen := pass_symbol hr hc hleft hfetch
  have hfirst := ends_of_passes hr hopen
  rcases step_bind_eq_error h with hreject | ⟨e, second, he, hclose⟩
  · have hbegun := hinner first expected found after hfirst hreject hne
    exact hbegun.begins.parenthesized hleft hopen
  · have hyields := hsound first e second hfirst he
    rcases require_bind_unexpected hclose with rfl | ⟨_, _, _, hlast⟩
    · exact hyields.begins.parenthesized hleft hopen
    · obtain ⟨_, _, _, hpure⟩ := fetch_bind_unexpected hlast
      cases hpure

theorem arguments_halts (hsound : Sound ops .expression inner)
    (hinner : Halts ops .expression inner) {fuel : Nat} {done : List Expr} (hr : r.Ends)
    (h : arguments inner fuel done r = .error (.unexpected expected found) after)
    (hne : expected ≠ .lessNesting) : Begins ops .arguments r after := by
  induction fuel generalizing r done with
  | zero => cases h
  | succ fuel ih =>
    rcases step_bind_eq_error h with hreject | ⟨e, first, he, hmore⟩
    · exact (hinner r expected found after hr hreject hne).begins.lastArgument
    · have hyields := hsound r e first hr he
      have hfirst := hyields.ends hr
      obtain ⟨t, _, htest⟩ := current_bind_unexpected hmore
      by_cases hclose : t.isSymbol ")" = true
      · rw [if_pos hclose] at htest
        cases htest
      · rw [if_neg hclose] at htest
        rcases require_bind_unexpected htest with rfl | ⟨comma, hc, hcomma, hnext⟩
        · exact hyields.begins.lastArgument
        · obtain ⟨_, second, hfetch, hrest⟩ := fetch_bind_unexpected hnext
          have hpass := pass_symbol hfirst hc hcomma hfetch
          exact .argument hyields hcomma hpass (ih (ends_of_passes hfirst hpass) hrest)

theorem argumentList_halts (hsound : Sound ops .expression inner)
    (hinner : Halts ops .expression inner) (hr : r.Ends) (hc : r.current = some left)
    (hleft : left.isSymbol "(" = true)
    (h : argumentList inner r = .error (.unexpected expected found) after)
    (hne : expected ≠ .lessNesting) :
    ∃ start, r.Passes [left] start ∧ Begins ops .arguments start after := by
  obtain ⟨next, start, hfetch, h⟩ := fetch_bind_unexpected h
  have hopen := pass_symbol hr hc hleft hfetch
  by_cases hclose : next.isSymbol ")" = true
  · rw [if_pos hclose] at h
    cases h
  · rw [if_neg hclose, step_bind_ok (rounds_eq start)] at h
    exact ⟨start, hopen, arguments_halts hsound hinner (ends_of_passes hr hopen) h hne⟩

theorem application_halts (hsound : Sound ops .expression inner)
    (hinner : Halts ops .expression inner) {name : String} (hr : r.Ends)
    (hc : r.current = some t) (ht : t.kind = .identifier name)
    (h : application inner r = .error (.unexpected expected found) after)
    (hne : expected ≠ .lessNesting) : Unfinished ops .primary r after := by
  obtain ⟨left, first, hfetch, h⟩ := fetch_bind_unexpected h
  obtain ⟨hname, hleftc⟩ := fetch_eq_ok hr hc (by rw [Token.isEnd, ht]) hfetch
  by_cases hleft : left.isSymbol "(" = true
  · rw [if_pos hleft] at h
    rcases step_bind_eq_error h with hreject | ⟨args, second, _, hlast⟩
    · obtain ⟨start, hopen, hargs⟩ :=
        argumentList_halts hsound hinner (ends_of_passes hr hname) hleftc hleft hreject hne
      exact hargs.call ht hname hleft hopen
    · obtain ⟨_, _, _, hpure⟩ := fetch_bind_unexpected hlast
      cases hpure
  · rw [if_neg hleft] at h
    cases h

theorem primary_halts (hsound : Sound ops .expression (expression ops depth))
    (hinner : Halts ops .expression (expression ops depth)) :
    Halts ops .primary (primary ops (depth + 1)) := by
  intro r expected found after hr h hne
  obtain ⟨t, hc, _⟩ := current_bind_unexpected h
  rw [primary_of_current hc] at h
  unfold primaryAt at h
  cases ht : t.kind with
  | identifier name =>
    simp only [ht] at h
    rcases step_bind_eq_error h with hreject | ⟨_, _, _, hpure⟩
    · exact application_halts hsound hinner hr hc ht hreject hne
    · cases hpure
  | number value =>
    simp only [ht, number_of_current hc ht] at h
    obtain ⟨_, _, _, hpure⟩ := fetch_bind_unexpected h
    cases hpure
  | _ =>
    simp only [ht] at h
    by_cases hleft : t.isSymbol "(" = true
    · rw [if_pos hleft] at h
      exact parenthesized_halts hsound hinner hr hc hleft h hne
    · rw [if_neg hleft] at h
      obtain ⟨_, rfl⟩ := fail_eq_unexpected h
      exact unfinished_operand ops _

theorem rightSide_halts {climb : Int → Expr → Parse Expr} {precedence : Int} {operand : Expr}
    (hclimb : Halts ops .tail (climb (precedence + 1) operand)) :
    Halts ops .tail (rightSide ops climb precedence operand) := by
  intro r expected found after hr h hne
  obtain ⟨next, _, h⟩ := current_bind_unexpected h
  by_cases hlt : precedence < ops.precedence next
  · rw [if_pos hlt] at h
    exact hclimb r expected found after hr h hne
  · rw [if_neg hlt] at h
    cases h

theorem chain_halts {primary : Parse Expr} {climb : Int → Expr → Parse Expr} {least : Int}
    (hleast : 0 ≤ least) (hsound : Sound ops .primary primary)
    (hextends : ∀ bound, 0 ≤ bound → Extends ops (climb bound))
    (hprimary : Halts ops .primary primary)
    (hclimb : ∀ bound lhs, 0 ≤ bound → Halts ops .tail (climb bound lhs)) (fuel : Nat)
    (lhs : Expr) : Halts ops .tail (chain ops primary climb least fuel lhs) := by
  -- What the earlier rounds have read stands in front of what the last one has begun.
  induction fuel generalizing lhs with
  | zero =>
    intro r expected found after hr h
    cases h
  | succ fuel ih =>
    intro r expected found after hr h hne
    obtain ⟨op, hc, h⟩ := current_bind_unexpected h
    by_cases hlt : ops.precedence op < least
    · simp only [if_pos hlt] at h
      cases h
    · simp only [if_neg hlt] at h
      have hop : ops.Joins op := OperatorTable.joins_of_precedence (by omega)
      obtain ⟨text, hkind, _⟩ := id hop
      obtain ⟨_, first, hfetch, h⟩ := fetch_bind_unexpected h
      have hp := (fetch_eq_ok hr hc (by rw [Token.isEnd, hkind]) hfetch).1
      have hfirst := ends_of_passes hr hp
      rcases step_bind_eq_error h with hreject | ⟨operand, second, hoperand, hround⟩
      · exact (hprimary first expected found after hfirst hreject hne).operand hop hp
      · have hyields := hsound first operand second hfirst hoperand
        have hsecond := hyields.ends hfirst
        rcases step_bind_eq_error hround with hreject | ⟨rhs, third, hrhs, hrest⟩
        · have htight := rightSide_halts (hclimb _ operand (by omega)) second expected found
            after hsecond hreject hne
          exact htight.tail_append (.tail hop hp hyields (.noTail ops second))
        · obtain ⟨_, htight, _⟩ := rightSide_sound (hextends _ (by omega)) operand second rhs
            third hsecond hrhs
          have hloose := ih _ third expected found after (htight.ends hsecond) hrest hne
          exact hloose.tail_append (.tail hop hp hyields htight)

theorem productions_halt (ops : OperatorTable) (depth : Nat) :
    Halts ops .expression (expression ops depth) ∧
      (∀ least lhs, 0 ≤ least → Halts ops .tail (climb ops depth least lhs)) ∧
      Halts ops .primary (primary ops depth) := by
  induction depth with
  | zero =>
    have hdeep : ∀ nt, Halts ops nt (fail .lessNesting) := by
      intro nt r expected found after _ h hne
      exact absurd (fail_eq_unexpected h).1 hne
    exact ⟨hdeep _, fun _ _ _ => hdeep _, hdeep _⟩
  | succ depth ih =>
    obtain ⟨hexpression, hclimb, hprimary⟩ := ih
    obtain ⟨hsound, hextends, hoperand⟩ := productions_sound ops depth
    refine ⟨fun r expected found after hr h hne => ?_, fun least lhs hleast => ?_,
      primary_halts hsound hexpression⟩
    · rcases step_bind_eq_error h with hreject | ⟨lhs, middle, hlhs, hrest⟩
      · exact (hprimary r expected found after hr hreject hne).first_operand
      · have hyields := hoperand r lhs middle hr hlhs
        exact .expression hyields
          (hclimb 0 lhs (le_refl 0) middle expected found after (hyields.ends hr) hrest hne)
    · intro r expected found after hr h hne
      have hchain := chain_halts hleast hoperand hextends hprimary hclimb
        (r.ahead.length + 1) lhs
      exact hchain r expected found after hr h hne

end Expressions

/-! ### Forms -/

/-- The parameters that were passed are distinct, also where another is rejected. -/
theorem parameters_halts {fuel : Nat} {done : List String} (hr : r.Ends) (hc : r.current = some t)
    (ht : t.isEnd = false) (hdone : done.Nodup)
    (h : parameters fuel done r = .error (.unexpected expected found) after) :
    ∃ ts new, r.Passes (t :: ts) after ∧ ts.map Token.kind = new.map TokenKind.identifier ∧
      (done ++ new).Nodup := by
  induction fuel generalizing r t done with
  | zero => cases h
  | succ fuel ih =>
    obtain ⟨u, first, hfetch, h⟩ := fetch_bind_unexpected h
    obtain ⟨hpass, hfirst⟩ := fetch_eq_ok hr hc ht hfetch
    cases hu : u.kind with
    | identifier name =>
      simp only [hu] at h
      by_cases hold : name ∈ done
      · rw [if_pos hold] at h
        obtain ⟨_, rfl⟩ := fail_eq_unexpected h
        exact ⟨[], [], hpass, rfl, by rwa [List.append_nil]⟩
      · rw [if_neg hold] at h
        have hnew : (done ++ [name]).Nodup := by
          rw [← List.concat_eq_append]
          exact hdone.concat hold
        obtain ⟨ts, new, hp, hkinds, hnodup⟩ :=
          ih (ends_of_passes hr hpass) hfirst (by rw [Token.isEnd, hu]) hnew h
        refine ⟨u :: ts, name :: new, hpass.append hp, ?_, by simpa using hnodup⟩
        rw [List.map_cons, List.map_cons, hu, hkinds]
    | _ =>
      simp only [hu] at h
      cases h

theorem heading_nullary {name : String} (ht : t.kind = .identifier name) :
    Heading [t, .ofSymbol "(", .ofSymbol ")"] :=
  @Heading.mk t (.ofSymbol "(") (.ofSymbol ")") name [] [] ht rfl rfl List.nodup_nil rfl

theorem prototype_halts (hr : r.Ends)
    (h : prototype r = .error (.unexpected expected found) after) :
    ∃ ts us, r.Passes ts after ∧ us ≠ [] ∧ Heading (ts ++ us) := by
  obtain ⟨t, hc, h⟩ := current_bind_unexpected h
  cases ht : t.kind with
  | identifier name =>
    simp only [ht] at h
    obtain ⟨_, first, hfetch, h⟩ := fetch_bind_unexpected h
    have hname := (fetch_eq_ok hr hc (by rw [Token.isEnd, ht]) hfetch).1
    have hfirst := ends_of_passes hr hname
    rcases require_bind_unexpected h with rfl | ⟨left, hleftc, hleft, h⟩
    · exact ⟨[t], [.ofSymbol "(", .ofSymbol ")"], hname, by simp, heading_nullary ht⟩
    · -- From the opening parenthesis on, only the closing one is missing.
      have hopened : ∀ ts (names : List String), first.Passes (left :: ts) after →
          ts.map Token.kind = names.map TokenKind.identifier → names.Nodup →
          ∃ ts us, r.Passes ts after ∧ us ≠ [] ∧ Heading (ts ++ us) := by
        intro ts names hp hkinds hnodup
        exact ⟨t :: left :: ts, [.ofSymbol ")"], hname.append hp, by simp,
          .mk ht hleft hkinds hnodup closing_isSymbol⟩
      rw [step_bind_ok (rounds_eq first)] at h
      rcases step_bind_eq_error h with hreject | ⟨params, second, hparams, hclose⟩
      · obtain ⟨ts, new, hp, hkinds, hnodup⟩ :=
          parameters_halts hfirst hleftc (isEnd_of_isSymbol hleft) List.nodup_nil hreject
        exact hopened ts new hp hkinds hnodup
      · obtain ⟨ts, new, rfl, hnodup, hp, hkinds⟩ := parameters_sound hfirst hleftc
          (isEnd_of_isSymbol hleft) (Nat.lt_succ_self _) List.nodup_nil hparams
        rcases require_bind_unexpected hclose with rfl | ⟨_, _, _, hlast⟩
        · exact hopened ts _ hp hkinds hnodup
        · obtain ⟨_, _, _, hpure⟩ := fetch_bind_unexpected hlast
          cases hpure
  | _ =>
    simp only [ht] at h
    obtain ⟨_, rfl⟩ := fail_eq_unexpected h
    exact ⟨[], [.ofName "x", .ofSymbol "(", .ofSymbol ")"], .nil _, by simp, heading_nullary rfl⟩

theorem definition_halts (hr : r.Ends) (hc : r.current = some t) (ht : t.kind = .define)
    (h : definition ops depth r = .error (.unexpected expected found) after)
    (hne : expected ≠ .lessNesting) :
    ∃ ts us, r.Passes ts after ∧ us ≠ [] ∧ IsForm ops (ts ++ us) := by
  obtain ⟨_, first, hfetch, h⟩ := fetch_bind_unexpected h
  have hkeyword := (fetch_eq_ok hr hc (by rw [Token.isEnd, ht]) hfetch).1
  have hfirst := ends_of_passes hr hkeyword
  rcases step_bind_eq_error h with hreject | ⟨p, second, hproto, hbody⟩
  · obtain ⟨ts, us, hp, _, hheading⟩ := prototype_halts hfirst hreject
    have hform := isForm_definition ht hheading (.expression (derives_x ops) .noTail)
    exact ⟨t :: ts, us ++ [.ofName "x"], hkeyword.append hp, by simp, by simpa using hform⟩
  · obtain ⟨heading, hheading, hp, _⟩ := prototype_sound hfirst hproto
    have hsecond := ends_of_passes hfirst hp
    rcases step_bind_eq_error hbody with hreject | ⟨_, _, _, hpure⟩
    · obtain ⟨ts, us, kept, hpts, hus, hts⟩ :=
        (productions_halt ops depth).1 second expected found after hsecond hreject hne
      have hform := isForm_definition ht hheading hts
      refine ⟨t :: (heading ++ ts), us, hkeyword.append (hp.append hpts), hus, ?_⟩
      simpa using hform
    · cases hpure

theorem external_halts (hr : r.Ends) (hc : r.current = some t) (ht : t.kind = .external)
    (h : external r = .error (.unexpected expected found) after) :
    ∃ ts us, r.Passes ts after ∧ us ≠ [] ∧ IsForm ops (ts ++ us) := by
  obtain ⟨_, first, hfetch, h⟩ := fetch_bind_unexpected h
  have hkeyword := (fetch_eq_ok hr hc (by rw [Token.isEnd, ht]) hfetch).1
  obtain ⟨ts, us, hp, hus, hheading⟩ := prototype_halts (ends_of_passes hr hkeyword) h
  exact ⟨t :: ts, us, hkeyword.append hp, hus, isForm_external ht hheading⟩

theorem bareExpression_halts (hr : r.Ends)
    (h : bareExpression ops depth r = .error (.unexpected expected found) after)
    (hne : expected ≠ .lessNesting) :
    ∃ ts us, r.Passes ts after ∧ us ≠ [] ∧ IsForm ops (ts ++ us) := by
  obtain ⟨_, _, h⟩ := current_bind_unexpected h
  rcases step_bind_eq_error h with hreject | ⟨_, _, _, hpure⟩
  · obtain ⟨ts, us, kept, hp, hus, hts⟩ :=
      (productions_halt ops depth).1 r expected found after hr hreject hne
    exact ⟨ts, us, hp, hus, hts.isForm⟩
  · cases hpure

/-- The tokens in front of the one that a form is rejected at are a proper prefix of a form. -/
theorem form_halts (hr : r.Ends) (hc : r.current = some t)
    (h : form? ops depth r = .error (.unexpected expected found) after)
    (hne : expected ≠ .lessNesting) :
    ∃ ts us, r.Passes ts after ∧ us ≠ [] ∧ IsForm ops (ts ++ us) := by
  cases hend : t.isEnd with
  | true =>
    rw [form_end_eq hc hend] at h
    cases h
  | false =>
    cases hsymbol : t.isSymbol ";" with
    | true =>
      rw [form_separator_eq hc hsymbol] at h
      obtain ⟨_, _, _, hpure⟩ := fetch_bind_unexpected h
      cases hpure
    | false =>
      rw [form_kind_eq hc hend hsymbol] at h
      have hread := step_map_eq_error h
      unfold FormKind.ofToken at hread
      split at hread
      · next ht => exact definition_halts hr hc ht (step_map_eq_error hread) hne
      · next ht => exact external_halts hr hc ht (step_map_eq_error hread)
      · exact bareExpression_halts hr (step_map_eq_error hread) hne

end Parse
end ScalarLang
