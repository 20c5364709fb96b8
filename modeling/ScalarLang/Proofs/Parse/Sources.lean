import Mathlib
import ScalarLang.Proofs.Parse.Acceptance
import ScalarLang.Proofs.Parse.Soundness

/-!
# Sources

A source is read as forms exactly if its tokens are derivable, and the forms spell the tokens that
are kept.
-/
namespace ScalarLang.Parse

variable {ops : OperatorTable} {r middle after : Reader} {t : Token}

/-! ### Prototypes -/

theorem parameters_sound {fuel : Nat} {done names : List String} (hr : r.Ends)
    (hc : r.current = some t) (ht : t.isEnd = false) (hfuel : r.ahead.length < fuel)
    (hdone : done.Nodup) (h : parameters fuel done r = .ok names after) :
    ∃ ts new, names = done ++ new ∧ names.Nodup ∧ r.Passes (t :: ts) after ∧
      ts.map Token.kind = new.map TokenKind.identifier := by
  induction fuel generalizing r t done with
  | zero => exact absurd hfuel (Nat.not_lt_zero _)
  | succ fuel ih =>
    obtain ⟨u, first, hfetch, h⟩ := step_bind_eq_ok.1 h
    obtain ⟨hpass, hfirst⟩ := fetch_eq_ok hr hc ht hfetch
    cases hu : u.kind with
    | identifier name =>
      simp only [hu] at h
      by_cases hold : name ∈ done
      · rw [if_pos hold] at h
        exact absurd h fail_ne_ok
      · rw [if_neg hold] at h
        have hlength := hpass.length_ahead
        rw [List.length_singleton] at hlength
        have hnew : (done ++ [name]).Nodup := by
          refine List.nodup_append.2 ⟨hdone, by simp, ?_⟩
          intro a ha b hb
          rw [List.mem_singleton.1 hb]
          rintro rfl
          exact hold ha
        obtain ⟨ts, new, rfl, hnodup, hp, hkinds⟩ :=
          ih (ends_of_passes hr hpass) hfirst (by rw [Token.isEnd, hu]) (by omega) hnew h
        refine ⟨u :: ts, name :: new, by simp, hnodup, hpass.append hp, ?_⟩
        rw [List.map_cons, List.map_cons, hu, hkinds]
    | _ =>
      simp only [hu] at h
      cases h
      exact ⟨[], [], (List.append_nil _).symm, hdone, hpass, rfl⟩

theorem prototype_sound {p : Prototype} (hr : r.Ends) (h : prototype r = .ok p after) :
    ∃ heading, Heading heading ∧ r.Passes heading after ∧
      heading.map Token.kind = p.spelling ∧ ∃ t ∈ heading, t.kind = .identifier p.name := by
  obtain ⟨t, middle, hcurrent, hrest⟩ := step_bind_eq_ok.1 h
  obtain ⟨hc, rfl⟩ := current_eq_ok hcurrent
  cases ht : t.kind with
  | identifier name =>
    simp only [ht] at hrest
    obtain ⟨_, first, hfetch, hrest⟩ := step_bind_eq_ok.1 hrest
    obtain ⟨⟨⟩, second, hopen, hrest⟩ := step_bind_eq_ok.1 hrest
    obtain ⟨_, _, hrounds, hrest⟩ := step_bind_eq_ok.1 hrest
    obtain ⟨names, third, hparams, hrest⟩ := step_bind_eq_ok.1 hrest
    obtain ⟨⟨⟩, fourth, hclose, hrest⟩ := step_bind_eq_ok.1 hrest
    obtain ⟨_, fifth, hlast, hrest⟩ := step_bind_eq_ok.1 hrest
    cases hrest
    cases hrounds
    have hname := (fetch_eq_ok hr hc (by rw [Token.isEnd, ht]) hfetch).1
    have hfirst := ends_of_passes hr hname
    obtain ⟨rfl, left, hleftc, hleft⟩ := require_eq_ok hopen
    obtain ⟨ts, new, rfl, hnodup, hp, hkinds⟩ := parameters_sound hfirst hleftc
      (isEnd_of_isSymbol hleft) (Nat.lt_succ_self _) List.nodup_nil hparams
    obtain ⟨rfl, right, hrightc, hright⟩ := require_eq_ok hclose
    have hend := pass_symbol (ends_of_passes hfirst hp) hrightc hright hlast
    refine ⟨t :: left :: (ts ++ [right]), .mk ht hleft hkinds hnodup hright,
      hname.append (hp.append hend), ?_, t, List.mem_cons_self .., ht⟩
    simp [Prototype.spelling, ht, hkinds, Token.kind_of_isSymbol hleft,
      Token.kind_of_isSymbol hright]
  | _ =>
    simp only [ht] at hrest
    exact absurd hrest fail_ne_ok

/-! ### Forms -/

theorem isAnonymous_eq_false {p : Prototype} {heading : List Token}
    (hnamed : ∀ t ∈ heading, t.Named) (h : ∃ t ∈ heading, t.kind = .identifier p.name) :
    p.isAnonymous = false := by
  obtain ⟨t, ht, hkind⟩ := h
  have hne := hnamed t ht p.name hkind
  simpa [Prototype.isAnonymous] using hne

/-- A reader passes the tokens of a form or a separator, and those that are kept spell what was
found. -/
def YieldsForm (ops : OperatorTable) (r : Reader) (found : Option Form) (after : Reader) : Prop :=
  ∃ ts kept, TopLevel ops ts kept ∧ r.Passes ts after ∧
    ((∀ t ∈ ts, t.Named) → kept.map Token.kind = found.toList.flatMap Form.spelling)

theorem definition_sound {depth : Nat} {f : Function} (hr : r.Ends) (hc : r.current = some t)
    (ht : t.kind = .define) (h : definition ops depth r = .ok f after) :
    YieldsForm ops r (some (.function f)) after := by
  obtain ⟨_, first, hfetch, h⟩ := step_bind_eq_ok.1 h
  obtain ⟨p, second, hproto, h⟩ := step_bind_eq_ok.1 h
  obtain ⟨body, third, hbody, h⟩ := step_bind_eq_ok.1 h
  cases h
  have hkeyword := (fetch_eq_ok hr hc (by rw [Token.isEnd, ht]) hfetch).1
  have hfirst := ends_of_passes hr hkeyword
  obtain ⟨heading, hheading, hp, hspell, hname⟩ := prototype_sound hfirst hproto
  obtain ⟨ts, kept, hts, hpts, hkept⟩ := (productions_sound ops depth).1 second body _
    (ends_of_passes hfirst hp) hbody
  refine ⟨t :: (heading ++ ts), t :: (heading ++ kept), .definition ht hheading hts,
    hkeyword.append (hp.append hpts), fun hnamed => ?_⟩
  have hanonymous : p.isAnonymous = false := by
    refine isAnonymous_eq_false (fun u hu => hnamed u ?_) hname
    exact List.mem_cons_of_mem _ (List.mem_append_left _ hu)
  simp [Form.spelling, ht, hspell, hkept, hanonymous]

theorem external_sound {p : Prototype} (hr : r.Ends) (hc : r.current = some t)
    (ht : t.kind = .external) (h : external r = .ok p after) :
    YieldsForm ops r (some (.external p)) after := by
  obtain ⟨_, first, hfetch, h⟩ := step_bind_eq_ok.1 h
  have hkeyword := (fetch_eq_ok hr hc (by rw [Token.isEnd, ht]) hfetch).1
  obtain ⟨heading, hheading, hp, hspell, _⟩ := prototype_sound (ends_of_passes hr hkeyword) h
  refine ⟨t :: heading, t :: heading, .external ht hheading, hkeyword.append hp, fun _ => ?_⟩
  simp [Form.spelling, ht, hspell]

theorem bareExpression_sound {depth : Nat} {f : Function} (hr : r.Ends)
    (h : bareExpression ops depth r = .ok f after) :
    YieldsForm ops r (some (.function f)) after := by
  obtain ⟨u, middle, hcurrent, hrest⟩ := step_bind_eq_ok.1 h
  obtain ⟨_, rfl⟩ := current_eq_ok hcurrent
  obtain ⟨body, second, hbody, hrest⟩ := step_bind_eq_ok.1 hrest
  cases hrest
  obtain ⟨ts, kept, hts, hp, hkept⟩ := (productions_sound ops depth).1 _ body _ hr hbody
  refine ⟨ts, kept, .expression hts, hp, fun _ => ?_⟩
  simp [Form.spelling, hkept, Prototype.isAnonymous]

theorem form_sound {depth : Nat} {found : Option Form} (hr : r.Ends) (hc : r.current = some t)
    (ht : t.isEnd = false) (h : form? ops depth r = .ok found after) :
    YieldsForm ops r found after := by
  obtain ⟨u, middle, hstart, hrest⟩ := step_bind_eq_ok.1 h
  rw [start_of_some hc] at hstart
  cases hstart
  cases hkind : t.kind with
  | eof =>
    rw [Token.isEnd, hkind] at ht
    cases ht
  | define =>
    simp only [hkind] at hrest
    obtain ⟨form, hform, rfl⟩ := step_map_eq_ok hrest
    obtain ⟨f, hread, rfl⟩ := step_map_eq_ok hform
    exact definition_sound hr hc hkind hread
  | external =>
    simp only [hkind] at hrest
    obtain ⟨form, hform, rfl⟩ := step_map_eq_ok hrest
    obtain ⟨p, hread, rfl⟩ := step_map_eq_ok hform
    exact external_sound hr hc hkind hread
  | _ =>
    simp only [hkind] at hrest
    by_cases hsemicolon : t.isSymbol ";" = true
    · rw [if_pos hsemicolon] at hrest
      obtain ⟨_, second, hfetch, hrest⟩ := step_bind_eq_ok.1 hrest
      cases hrest
      exact ⟨[t], [], .separator hsemicolon, pass_symbol hr hc hsemicolon hfetch, fun _ => rfl⟩
    · rw [if_neg hsemicolon] at hrest
      obtain ⟨form, hform, rfl⟩ := step_map_eq_ok hrest
      obtain ⟨f, hread, rfl⟩ := step_map_eq_ok hform
      exact bareExpression_sound hr hread

theorem formsFrom_sound {depth fuel : Nat} {forms : List Form} (hops : ops.Reachable)
    (hr : r.Ends) (hfuel : r.ahead.length < fuel) (h : formsFrom ops depth fuel r = .ok forms after) :
    ∃ ts kept ending, Program ops ts kept ∧ r.Passes ts after ∧ after.current = some ending ∧
      ending.isEnd = true ∧
      ((∀ t ∈ ts, t.Named) → kept.map Token.kind = forms.flatMap Form.spelling) := by
  -- Every form takes at least a token, so the rounds do not run out before the end.
  induction fuel generalizing r forms with
  | zero => exact absurd hfuel (Nat.not_lt_zero _)
  | succ fuel ih =>
    obtain ⟨t, middle, hcurrent, htest⟩ := step_bind_eq_ok.1 h
    obtain ⟨hc, rfl⟩ := current_eq_ok hcurrent
    by_cases hend : t.isEnd = true
    · rw [if_pos hend] at htest
      cases htest
      exact ⟨[], [], t, .nil, .nil _, hc, hend, fun _ => rfl⟩
    · rw [if_neg hend] at htest
      obtain ⟨found, first, hform, htest⟩ := step_bind_eq_ok.1 htest
      obtain ⟨rest, second, hrest, htest⟩ := step_bind_eq_ok.1 htest
      cases htest
      obtain ⟨ts, kept, htop, hp, hspell⟩ := form_sound hr hc (by simpa using hend) hform
      have hlength : first.ahead.length < fuel := by
        obtain ⟨_, _, rfl, _⟩ := htop.starts hops
        have hahead := hp.length_ahead
        rw [List.length_cons] at hahead
        omega
      obtain ⟨us, kept', ending, hus, hpus, hce, hending, hspell'⟩ :=
        ih (ends_of_passes hr hp) hlength hrest
      refine ⟨ts ++ us, kept ++ kept', ending, .cons htop hus, hp.append hpus, hce, hending,
        fun hnamed => ?_⟩
      rw [List.map_append, List.flatMap_append,
        hspell fun u hu => hnamed u (List.mem_append_left _ hu),
        hspell' fun u hu => hnamed u (List.mem_append_right _ hu)]

/-! ### Tokens of a source -/

section Tokens

variable {items rest : List Lexeme} {notes : List Note} {ts us : List Token} {ending : Token}

theorem tokensOf_token_eq_ok (h : tokensOf (⟨notes, .token t⟩ :: rest) = .ok ts) :
    ∃ us, tokensOf rest = .ok us ∧ ts = t :: us := by
  rw [tokensOf] at h
  cases hrest : tokensOf rest with
  | error fault =>
    rw [hrest] at h
    cases h
  | ok us =>
    rw [hrest] at h
    cases h
    exact ⟨us, rfl, rfl⟩

theorem mem_of_tokensOf (h : tokensOf items = .ok ts) :
    ∀ t ∈ ts, ∃ lexeme ∈ items, lexeme.item = .token t := by
  induction items generalizing ts with
  | nil =>
    cases h
    simp
  | cons lexeme rest ih =>
    obtain ⟨notes, item⟩ := lexeme
    cases item with
    | malformed fault => cases h
    | token u =>
      obtain ⟨us, hrest, rfl⟩ := tokensOf_token_eq_ok h
      intro t ht
      rcases List.mem_cons.1 ht with rfl | ht
      · exact ⟨_, List.mem_cons_self .., rfl⟩
      · obtain ⟨lexeme, hmem, hitem⟩ := ih hrest t ht
        exact ⟨lexeme, List.mem_cons_of_mem _ hmem, hitem⟩

theorem passes_of_tokensOf (hc : r.current = some t) (h : tokensOf r.ahead = .ok us)
    (heq : t :: us = ts ++ [ending]) :
    ∃ after, r.Passes ts after ∧ after.current = some ending := by
  induction ts generalizing r t us with
  | nil =>
    cases heq
    exact ⟨r, .nil r, hc⟩
  | cons u ts ih =>
    simp only [List.cons_append, List.cons.injEq] at heq
    obtain ⟨rfl, heq⟩ := heq
    cases hahead : r.ahead with
    | nil =>
      rw [hahead] at h
      cases h
      simp at heq
    | cons lexeme rest =>
      obtain ⟨notes, item⟩ := lexeme
      rw [hahead] at h
      cases item with
      | malformed fault => cases h
      | token next =>
        obtain ⟨vs, hrest, rfl⟩ := tokensOf_token_eq_ok h
        have hnext : { r with current := some next, ahead := rest }.current = some next := rfl
        obtain ⟨after, hp, hending⟩ := ih hnext hrest heq
        exact ⟨after, .cons hc hahead hp, hending⟩

theorem tokensOf_of_passes (hp : r.Passes ts after) (hc : after.current = some ending)
    (ha : after.ahead = []) (ht : r.current = some t) :
    ∃ us, tokensOf r.ahead = .ok us ∧ t :: us = ts ++ [ending] := by
  induction hp generalizing t with
  | nil =>
    cases hc.symm.trans ht
    rw [ha]
    exact ⟨[], rfl, rfl⟩
  | @cons r after u next notes rest ts hcurrent hahead _ ih =>
    cases hcurrent.symm.trans ht
    obtain ⟨us, hus, heq⟩ := ih hc ha rfl
    rw [hahead]
    exact ⟨next :: us, tokensOf_token notes next hus, by rw [heq]; rfl⟩

end Tokens

/-! ### Whole sources -/

theorem result_eq_ok {α : Type} {step : Parse α} {a : α} :
    step.result r = .ok a ↔ ∃ after, step r = .ok a after := by
  unfold Parse.result
  constructor
  · intro h
    split at h
    · next a' after hstep =>
      cases h
      exact ⟨after, hstep⟩
    · cases h
  · rintro ⟨after, h⟩
    rw [h]

theorem fetch_ofSource {file : String} {source : List Char} {t : Token}
    (h : fetch (.ofSource file source) = .ok t r) :
    r.current = some t ∧ r.Ends ∧ ∃ notes, lexemes file source = ⟨notes, .token t⟩ :: r.ahead := by
  have hends := endsOnce_lexemes file source
  cases hitems : lexemes file source with
  | nil =>
    rw [hitems] at hends
    exact hends.elim
  | cons lexeme rest =>
    obtain ⟨notes, item⟩ := lexeme
    have hahead : (Reader.ofSource file source).ahead = ⟨notes, item⟩ :: rest := hitems
    rw [hitems] at hends
    cases item with
    | token u =>
      rw [fetch_token hahead] at h
      cases h
      exact ⟨rfl, hends, notes, rfl⟩
    | malformed fault =>
      rw [fetch_malformed hahead] at h
      cases h

theorem fetch_ofSource_of_tokenize {file : String} {source : List Char} {ts : List Token}
    {t : Token} (h : tokenize file source = .ok (t :: ts)) :
    ∃ r, fetch (.ofSource file source) = .ok t r ∧ tokensOf r.ahead = .ok ts := by
  unfold tokenize at h
  cases hitems : lexemes file source with
  | nil =>
    rw [hitems] at h
    cases h
  | cons lexeme rest =>
    obtain ⟨notes, item⟩ := lexeme
    have hahead : (Reader.ofSource file source).ahead = ⟨notes, item⟩ :: rest := hitems
    rw [hitems] at h
    cases item with
    | malformed fault => cases h
    | token u =>
      obtain ⟨us, hrest, heq⟩ := tokensOf_token_eq_ok h
      cases heq
      exact ⟨_, fetch_token hahead, hrest⟩

/-- A reader in front of a source that comes to its end has passed the tokens of the source. -/
theorem tokenize_of_passes {file : String} {source : List Char} {ts : List Token} {t ending : Token}
    (hfetch : fetch (.ofSource file source) = .ok t r) (hp : r.Passes ts after)
    (hc : after.current = some ending) (hend : ending.isEnd = true) :
    tokenize file source = .ok (ts ++ [ending]) := by
  obtain ⟨hcurrent, hends, notes, hitems⟩ := fetch_ofSource hfetch
  have hahead : after.ahead = [] := by
    have hafter := ends_of_passes hends hp
    unfold Reader.Ends at hafter
    simpa [hc, hend] using hafter
  obtain ⟨us, hus, heq⟩ := tokensOf_of_passes hp hc hahead hcurrent
  rw [tokenize, hitems, tokensOf_token notes t hus, heq]

theorem all_sound {depth : Nat} {file : String} {source : List Char} {forms : List Form}
    (hops : ops.Reachable) (h : (all ops depth).result (.ofSource file source) = .ok forms) :
    ∃ tokens ending kept, tokenize file source = .ok (tokens ++ [ending]) ∧
      ending.isEnd = true ∧ Program ops tokens kept ∧
      kept.map Token.kind = forms.flatMap Form.spelling := by
  obtain ⟨after, h⟩ := result_eq_ok.1 h
  obtain ⟨t, first, hfetch, h⟩ := step_bind_eq_ok.1 h
  obtain ⟨_, _, hrounds, h⟩ := step_bind_eq_ok.1 h
  cases hrounds
  obtain ⟨_, hends, _⟩ := fetch_ofSource hfetch
  obtain ⟨ts, kept, ending, hprogram, hp, hce, hending, hspell⟩ :=
    formsFrom_sound hops hends (Nat.lt_succ_self _) h
  have htokens := tokenize_of_passes hfetch hp hce hending
  refine ⟨ts, ending, kept, htokens, hending, hprogram, hspell fun u hu => ?_⟩
  obtain ⟨lexeme, hmem, hitem⟩ := mem_of_tokensOf htokens u (List.mem_append_left _ hu)
  exact named_lexemesFrom lexeme hmem u hitem

/-- A reader in front of a source without malformed literals passes its tokens up to the last. -/
theorem passes_of_tokenize {file : String} {source : List Char} {tokens : List Token}
    {ending : Token} (htokens : tokenize file source = .ok (tokens ++ [ending])) :
    ∃ t first after, fetch (.ofSource file source) = .ok t first ∧ first.Passes tokens after ∧
      after.current = some ending := by
  obtain ⟨t, us, heq⟩ : ∃ t us, tokens ++ [ending] = t :: us := by
    cases tokens with
    | nil => exact ⟨ending, [], rfl⟩
    | cons t ts => exact ⟨t, ts ++ [ending], rfl⟩
  rw [heq] at htokens
  obtain ⟨first, hfetch, hus⟩ := fetch_ofSource_of_tokenize htokens
  obtain ⟨hc, _, _⟩ := fetch_ofSource hfetch
  obtain ⟨after, hp, hce⟩ := passes_of_tokensOf hc hus heq.symm
  exact ⟨t, first, after, hfetch, hp, hce⟩

theorem all_of_program {file : String} {source : List Char} {tokens kept : List Token}
    {ending : Token} (hops : ops.Reachable)
    (htokens : tokenize file source = .ok (tokens ++ [ending])) (hending : ending.isEnd = true)
    (h : Program ops tokens kept) :
    ∃ forms after, Settles (all ops) (.ofSource file source) forms after := by
  obtain ⟨t, first, after, hfetch, hp, hce⟩ := passes_of_tokenize htokens
  have hlength := hp.length_ahead
  obtain ⟨forms, hforms⟩ := formsFrom_of_program hops h hp hce hending
    (show tokens.length < first.ahead.length + 1 by omega)
  exact ⟨forms, after, Settles.after_ok hfetch (Settles.after_ok (rounds_eq first) hforms)⟩

/-- Unless nesting goes too deep, a source is read exactly if it holds no malformed literal and its
tokens are derivable. The forms then spell the tokens in order, without separators and grouping
parentheses. This holds for every depth budget, so for that of `parseAll`. -/
theorem source_is_read_iff_derivable (hops : ops.Reachable) (depth : Nat) (file : String)
    (source : List Char)
    (hnesting : ∀ failure, (all ops depth).result (.ofSource file source) = .error failure →
      failure.diagnostic.code ≠ some "P004") :
    ((∃ forms, (all ops depth).result (.ofSource file source) = .ok forms) ↔
      ∃ tokens ending kept, tokenize file source = .ok (tokens ++ [ending]) ∧
        ending.isEnd = true ∧ Program ops tokens kept) ∧
    ∀ forms, (all ops depth).result (.ofSource file source) = .ok forms →
      ∃ tokens ending kept, tokenize file source = .ok (tokens ++ [ending]) ∧
        ending.isEnd = true ∧ Program ops tokens kept ∧
        kept.map Token.kind = forms.flatMap Form.spelling := by
  refine ⟨⟨?_, ?_⟩, fun forms h => all_sound hops h⟩
  · rintro ⟨forms, h⟩
    obtain ⟨tokens, ending, kept, htokens, hending, hprogram, _⟩ := all_sound hops h
    exact ⟨tokens, ending, kept, htokens, hending, hprogram⟩
  · rintro ⟨tokens, ending, kept, htokens, hending, hprogram⟩
    obtain ⟨forms, after, hsettles⟩ := all_of_program hops htokens hending hprogram
    rcases hsettles.ok_or_exhausted depth with hok | ⟨t, stop, hdeep⟩
    · exact ⟨forms, result_eq_ok.2 ⟨after, hok⟩⟩
    · have hresult : (all ops depth).result (.ofSource file source) =
          .error (.unexpected .lessNesting t) := by
        rw [Parse.result, hdeep]
      exact absurd rfl (hnesting _ hresult)

/-- A parenthesis behind the body is a form of its own, and one behind a name makes a call. -/
theorem source_is_read_iff_derivable_parentheses :
    ∃ forms, parseAll .standard "" "def f(a b) (a + b) (c); f (a)".toList = .ok forms ∧
      ∃ tokens ending kept,
        tokenize "" "def f(a b) (a + b) (c); f (a)".toList = .ok (tokens ++ [ending]) ∧
        ending.isEnd = true ∧ Program .standard tokens kept ∧
        kept.map Token.kind =
          [.define, .identifier "f", .symbol "(", .identifier "a", .identifier "b", .symbol ")",
            .identifier "a", .symbol "+", .identifier "b", .identifier "c",
            .identifier "f", .symbol "(", .identifier "a", .symbol ")"] := by
  have hspell : (parseAll .standard "" "def f(a b) (a + b) (c); f (a)".toList).map
      (fun forms => forms.flatMap Form.spelling) =
      .ok [.define, .identifier "f", .symbol "(", .identifier "a", .identifier "b", .symbol ")",
        .identifier "a", .symbol "+", .identifier "b", .identifier "c",
        .identifier "f", .symbol "(", .identifier "a", .symbol ")"] := by cbv
  cases hresult : parseAll .standard "" "def f(a b) (a + b) (c); f (a)".toList with
  | error failure =>
    rw [hresult] at hspell
    cases hspell
  | ok forms =>
    have hmain := source_is_read_iff_derivable .standard depthLimit ""
      "def f(a b) (a + b) (c); f (a)".toList (by
        intro failure hfailure
        cases hresult.symm.trans hfailure)
    obtain ⟨tokens, ending, kept, htokens, hending, hprogram, hkept⟩ := hmain.2 forms hresult
    rw [hresult] at hspell
    refine ⟨forms, rfl, tokens, ending, kept, htokens, hending, hprogram, ?_⟩
    rw [hkept]
    exact Except.ok.inj hspell

end ScalarLang.Parse
