import ScalarLang.Proofs.Parse.Sources

/-!
# Readers inside a source

What holds of a reader wherever it has come to in a source, and of the forms that it reads there.
The state of a reader changes only by fetching items, so the readers that fetching leads to are all
that there are, also behind malformed literals and in the middle of a form.
-/
namespace ScalarLang

namespace Reader

/-- A reader that has fetched items of a source, one after the other. -/
inductive Reached (file : String) (source : List Char) : Reader → Prop
  | start : Reached file source (.ofSource file source)
  | token {r after : Reader} {t : Token} (hr : Reached file source r)
      (h : Parse.fetch r = .ok t after) : Reached file source after
  | malformed {r after : Reader} {failure : Failure} (hr : Reached file source r)
      (h : Parse.fetch r = .error failure after) : Reached file source after

/-- The reader stands on the token or has it ahead. -/
def Holds (r : Reader) (t : Token) : Prop :=
  r.current = some t ∨ ∃ notes, ⟨notes, .token t⟩ ∈ r.ahead

/-- What a reader keeps inside a source: the end comes once and last, it is the token to go on
with, and names are words. -/
structure Inside (r : Reader) : Prop where
  ends : r.Ends
  ending : ∀ t, r.Holds t → t.isEnd = true → r.ending = t
  words : ∀ t name, r.Holds t → t.kind = .identifier name → IsWord name

theorem inside_ofSource (file : String) (source : List Char) : (ofSource file source).Inside := by
  have hends := endsOnce_lexemes file source
  have holds : ∀ t, (ofSource file source).Holds t →
      ∃ notes, ⟨notes, .token t⟩ ∈ lexemes file source := by
    rintro t (ht | ht)
    · cases ht
    · exact ht
  refine ⟨hends, fun t ht hend => ?_, fun t name ht hkind => ?_⟩
  · obtain ⟨notes, hmem⟩ := holds t ht
    have hlast := hends.getLast?_eq hmem hend
    simp only [ofSource, ofLexemes, hlast]
  · obtain ⟨notes, hmem⟩ := holds t ht
    exact isWord_of_mem_lexemes hmem hkind

variable {r after : Reader} {t : Token} {notes : List Note} {rest : List Lexeme}

theorem Inside.endsOnce (h : r.Inside) (hc : ∀ t, r.current = some t → t.isEnd = false) :
    EndsOnce r.ahead := by
  have hends := h.ends
  unfold Ends at hends
  split at hends
  · next u hu =>
    rw [hc u hu] at hends
    exact hends
  · exact hends

/-- Where nothing is ahead the reader stands on the end. -/
theorem Inside.current_of_nil (h : r.Inside) (ha : r.ahead = []) : r.current = some r.ending := by
  have hends := h.ends
  unfold Ends at hends
  split at hends
  · next u hu =>
    split at hends
    · next hend => rw [hu, h.ending u (Or.inl hu) hend]
    · rw [ha] at hends
      exact hends.elim
  · rw [ha] at hends
    exact hends.elim

theorem Inside.of_holds (h : r.Inside) (hends : after.Ends) (heq : after.ending = r.ending)
    (holds : ∀ t, after.Holds t → r.Holds t) : after.Inside where
  ends := hends
  ending t ht hend := by rw [heq, h.ending t (holds t ht) hend]
  words t name ht hkind := h.words t name (holds t ht) hkind

theorem Inside.to_token (h : r.Inside) (ha : r.ahead = ⟨notes, .token t⟩ :: rest) :
    Inside { r with current := some t, ahead := rest } := by
  have hends : EndsOnce (⟨notes, .token t⟩ :: rest) := by
    have hr := h.ends
    unfold Ends at hr
    rw [ha] at hr
    split at hr
    · split at hr
      · cases hr
      · exact hr
    · exact hr
  refine h.of_holds ?_ rfl ?_
  · exact hends
  · rintro u (hu | ⟨own, hu⟩)
    · cases hu
      refine Or.inr ⟨notes, ?_⟩
      rw [ha]
      exact List.mem_cons_self ..
    · refine Or.inr ⟨own, ?_⟩
      rw [ha]
      exact List.mem_cons_of_mem _ hu

theorem Inside.past_malformed (h : r.Inside) {fault : Malformed}
    (ha : r.ahead = ⟨notes, .malformed fault⟩ :: rest) : Inside { r with ahead := rest } := by
  refine h.of_holds ?_ rfl ?_
  · have hr := h.ends
    unfold Ends at hr ⊢
    rw [ha] at hr
    simp only
    split at hr
    · split at hr
      · cases hr
      · next hopen =>
        rw [if_neg hopen]
        exact hr
    · exact hr
  · rintro u (hu | ⟨own, hu⟩)
    · exact Or.inl hu
    · refine Or.inr ⟨own, ?_⟩
      rw [ha]
      exact List.mem_cons_of_mem _ hu

/-- All that fetching an item can do: the reader stays on the end, moves to the next token, or uses
up a malformed literal. -/
theorem Inside.fetch_cases (h : r.Inside) :
    (r.ahead = [] ∧ r.current = some r.ending ∧ Parse.fetch r = .ok r.ending r) ∨
    (∃ notes t rest, r.ahead = ⟨notes, .token t⟩ :: rest ∧
      Parse.fetch r = .ok t { r with current := some t, ahead := rest }) ∨
    ∃ notes fault rest, r.ahead = ⟨notes, .malformed fault⟩ :: rest ∧
      Parse.fetch r = .error (.malformed fault) { r with ahead := rest } := by
  cases ha : r.ahead with
  | nil =>
    have hc := h.current_of_nil ha
    refine Or.inl ⟨rfl, hc, ?_⟩
    rw [Parse.fetch_nil ha, ← hc]
  | cons lexeme rest =>
    obtain ⟨notes, item⟩ := lexeme
    cases item with
    | token t => exact Or.inr (Or.inl ⟨notes, t, rest, rfl, Parse.fetch_token ha⟩)
    | malformed fault => exact Or.inr (Or.inr ⟨notes, fault, rest, rfl, Parse.fetch_malformed ha⟩)

theorem Inside.fetch_ok_cases (h : r.Inside) (hfetch : Parse.fetch r = .ok t after) :
    (after = r ∧ r.ahead = [] ∧ r.current = some t) ∨
    ∃ notes rest, r.ahead = ⟨notes, .token t⟩ :: rest ∧
      after = { r with current := some t, ahead := rest } := by
  rcases h.fetch_cases with ⟨ha, hc, hf⟩ | ⟨notes, u, rest, ha, hf⟩ | ⟨_, _, _, _, hf⟩
  · cases hf.symm.trans hfetch
    exact Or.inl ⟨rfl, ha, hc⟩
  · cases hf.symm.trans hfetch
    exact Or.inr ⟨notes, rest, ha, rfl⟩
  · cases hf.symm.trans hfetch

theorem Reached.inside {file : String} {source : List Char} (h : Reached file source r) :
    r.Inside := by
  induction h with
  | start => exact inside_ofSource file source
  | token _ h ih =>
    rcases ih.fetch_ok_cases h with ⟨rfl, _, _⟩ | ⟨notes, rest, ha, rfl⟩
    · exact ih
    · exact ih.to_token ha
  | malformed _ h ih =>
    rcases ih.fetch_cases with ⟨_, _, hf⟩ | ⟨_, _, _, _, hf⟩ | ⟨notes, fault, rest, ha, hf⟩
    · rw [hf] at h
      cases h
    · rw [hf] at h
      cases h
    · rw [hf] at h
      cases h
      exact ih.past_malformed ha

theorem Passes.holds {ts : List Token} (h : r.Passes ts after) : ∀ t ∈ ts, r.Holds t := by
  induction h with
  | nil r => simp
  | @cons r after t next notes rest ts hc ha _ ih =>
    intro u hu
    rcases List.mem_cons.1 hu with rfl | hu
    · exact Or.inl hc
    · rcases ih u hu with hnext | ⟨own, hmem⟩
      · cases hnext
        exact Or.inr ⟨notes, by rw [ha]; exact List.mem_cons_self ..⟩
      · exact Or.inr ⟨own, by rw [ha]; exact List.mem_cons_of_mem _ hmem⟩

theorem Inside.passes {ts : List Token} (h : r.Inside) (hp : r.Passes ts after) :
    after.Inside := by
  induction hp with
  | nil => exact h
  | cons _ ha _ ih => exact ih (h.to_token ha)

end Reader

/-! ### Forms that are read -/

/-- A form that is read somewhere in a source. -/
def Form.Read (form : Form) : Prop :=
  ∃ ops depth file source r after,
    Reader.Reached file source r ∧ Parse.form? ops depth r = .ok (some form) after

/-- The prototype of a form. -/
def Form.prototype : Form → Prototype
  | .function f => f.prototype
  | .external p => p

/-- A prototype as it can be read: parameters are words and different from each other, and there is
a name unless it wraps a bare expression. -/
structure Prototype.Regular (p : Prototype) : Prop where
  distinct : p.params.Nodup
  params : ∀ param ∈ p.params, IsWord param
  name : IsWord p.name ∨ p.name = "" ∧ p.params = []

namespace Parse

variable {ops : OperatorTable} {depth : Nat} {r after : Reader}

theorem params_of_heading {heading : List Token} {p : Prototype} (h : Heading heading)
    (hspell : heading.map Token.kind = p.spelling) : p.params.Nodup := by
  cases h with
  | @mk t left right name names ts ht hleft hnames hdistinct hright =>
    have hparams : names.map TokenKind.identifier = p.params.map TokenKind.identifier := by
      simp only [Prototype.spelling, List.map_cons, List.map_append, List.map_nil, hnames,
        List.cons.injEq] at hspell
      exact (List.append_inj' hspell.2.2 rfl).1
    have hinj : Function.Injective TokenKind.identifier := fun a b hab => by cases hab; rfl
    rw [← List.map_injective_iff.2 hinj hparams]
    exact hdistinct

theorem prototype_isWord {p : Prototype} (hr : r.Inside) (h : prototype r = .ok p after) :
    IsWord p.name := by
  obtain ⟨_, _, hp, _, t, ht, hkind⟩ := prototype_sound hr.ends h
  exact hr.words t p.name (hp.holds t ht) hkind

theorem prototype_regular {p : Prototype} (hr : r.Inside) (h : prototype r = .ok p after) :
    p.Regular := by
  obtain ⟨heading, hheading, hp, hspell, _⟩ := prototype_sound hr.ends h
  have hword : ∀ name, .identifier name ∈ p.spelling → IsWord name := by
    intro name hname
    rw [← hspell] at hname
    obtain ⟨u, hu, hukind⟩ := List.mem_map.1 hname
    exact hr.words u name (hp.holds u hu) hukind
  refine ⟨params_of_heading hheading hspell, fun param hparam => hword param ?_,
    Or.inl (prototype_isWord hr h)⟩
  simp [Prototype.spelling, hparam]

theorem inside_of_fetch {t : Token} (hr : r.Inside) (h : fetch r = .ok t after) :
    after.Inside := by
  rcases hr.fetch_ok_cases h with ⟨rfl, _, _⟩ | ⟨notes, rest, ha, rfl⟩
  · exact hr
  · exact hr.to_token ha

theorem start_inside {t : Token} (hr : r.Inside) (h : start r = .ok t after) : after.Inside := by
  obtain ⟨token, ahead, ending⟩ := r
  cases token with
  | some u =>
    cases h
    exact hr
  | none => exact inside_of_fetch hr h

theorem definition_regular {f : Function} (hr : r.Inside)
    (h : definition ops depth r = .ok f after) : f.prototype.Regular := by
  obtain ⟨_, first, hfetch, h⟩ := step_bind_eq_ok.1 h
  obtain ⟨p, second, hproto, h⟩ := step_bind_eq_ok.1 h
  obtain ⟨body, third, _, h⟩ := step_bind_eq_ok.1 h
  cases h
  exact prototype_regular (inside_of_fetch hr hfetch) hproto

theorem bareExpression_regular {f : Function} (h : bareExpression ops depth r = .ok f after) :
    f.prototype.Regular := by
  obtain ⟨t, first, _, h⟩ := step_bind_eq_ok.1 h
  obtain ⟨body, second, _, h⟩ := step_bind_eq_ok.1 h
  cases h
  exact ⟨List.nodup_nil, by simp, Or.inr ⟨rfl, rfl⟩⟩

theorem form_regular {form : Form} (hr : r.Inside) (h : form? ops depth r = .ok (some form) after) :
    form.prototype.Regular := by
  obtain ⟨t, first, hstart, h⟩ := step_bind_eq_ok.1 h
  have hfirst := start_inside hr hstart
  cases hkind : t.kind with
  | eof =>
    simp only [hkind] at h
    cases h
  | define =>
    simp only [hkind] at h
    obtain ⟨own, hown, heq⟩ := step_map_eq_ok h
    obtain ⟨f, hread, rfl⟩ := step_map_eq_ok hown
    cases heq
    exact definition_regular hfirst hread
  | external =>
    simp only [hkind] at h
    obtain ⟨own, hown, heq⟩ := step_map_eq_ok h
    obtain ⟨p, hread, rfl⟩ := step_map_eq_ok hown
    cases heq
    obtain ⟨_, second, hfetch, hproto⟩ := step_bind_eq_ok.1 hread
    exact prototype_regular (inside_of_fetch hfirst hfetch) hproto
  | _ =>
    simp only [hkind] at h
    by_cases hsemicolon : t.isSymbol ";" = true
    · rw [if_pos hsemicolon] at h
      obtain ⟨_, second, _, h⟩ := step_bind_eq_ok.1 h
      cases h
    · rw [if_neg hsemicolon] at h
      obtain ⟨own, hown, heq⟩ := step_map_eq_ok h
      obtain ⟨f, hread, rfl⟩ := step_map_eq_ok hown
      cases heq
      exact bareExpression_regular hread

end Parse

theorem Form.Read.regular {form : Form} (h : form.Read) : form.prototype.Regular := by
  obtain ⟨ops, depth, file, source, r, after, hr, hform⟩ := h
  exact Parse.form_regular hr.inside hform

end ScalarLang
