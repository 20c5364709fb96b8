import ScalarLang.Proofs.Session.Composition
import ScalarLang.Proofs.Session.Transcript

/-!
# Separated sources

A session that skips a token after each rejected form and one that does not are not in lock step:
the one skips in its recovery what the other passes in its next round. Where every form stands
before a semicolon or before the end, that token is a separator, so both sessions meet again behind
it with the same state, and nothing of the difference is written.
-/
namespace ScalarLang

variable {σ η : Type}

/-! ### Separated rows of tokens -/

/-- Rows of forms and semicolons where behind each form comes a semicolon or nothing. -/
inductive Separated (ops : OperatorTable) : List Token → Prop
  | nil : Separated ops []
  | separator {t : Token} {ts : List Token} (ht : t.isSymbol ";" = true)
      (hrest : Separated ops ts) : Separated ops (t :: ts)
  | form {ts us kept : List Token} (h : TopLevel ops ts kept)
      (hnext : ∀ t ∈ us.head?, t.isSymbol ";" = true) (hrest : Separated ops us) :
      Separated ops (ts ++ us)

namespace Parse

variable {ops other : OperatorTable} {n m : Nat} {r middle after : Reader} {t u ending : Token}
  {ts us kept : List Token}

/-- From a reader on, forms and semicolons are passed up to the end of the input, and each form is
left at a semicolon or at the end. -/
inductive Spaced (ops : OperatorTable) (depth : Nat) : Reader → Prop
  | done {r : Reader} {t : Token} (hc : r.current = some t) (ht : t.isEnd = true) :
      Spaced ops depth r
  | next {r middle : Reader} {t u : Token} {found : Option Form} (hc : r.current = some t)
      (ht : t.isEnd = false) (h : form? ops depth r = .ok found middle)
      (hu : middle.current = some u) (hgate : found.isSome → u.Closes)
      (hrest : Spaced ops depth middle) : Spaced ops depth r

/-- A larger budget reads the same forms. -/
theorem Spaced.mono (h : Spaced ops n r) (hops : ∀ t, other.precedence t = ops.precedence t)
    (hle : n ≤ m) : Spaced other m r := by
  induction h with
  | done hc ht => exact .done hc ht
  | @next r middle t u found hc ht h hu hgate _ ih =>
    refine .next hc ht ?_ hu hgate ih
    rw [← h]
    apply form_approximates hops hle
    rintro ⟨v, stop, hdeep⟩
    cases h.symm.trans hdeep

/-- A derivable expression is read to its end where a semicolon or the end follows. -/
theorem expression_of_closes (hops : ops.Reachable) (h : Derives ops .expression ts kept)
    (hp : r.Passes ts after) (hc : after.current = some u) (hu : u.Closes) :
    ∃ e, Settles (expression ops) r e after := by
  obtain ⟨e, he⟩ := h.readable
  have hno : ¬ ops.Joins u := by
    rcases hu with hkind | hkind
    · exact not_joins_of_kind (by simp [hkind])
    · have hsymbol : u.isSymbol ";" = true := Token.isSymbol_of_kind hkind
      exact hops.not_joins_of_isSymbol (by decide) hsymbol
  have hto : r.PassesTo ts u after := ⟨hp, hc, fun _ => hu.isSymbol (by decide)⟩
  exact ⟨e, phraseSettles_of_reading hops he r u after hto hno⟩

theorem form_of_closes (hops : ops.Reachable) (h : TopLevel ops ts kept) (hp : r.Passes ts after)
    (hc : after.current = some u) (hu : u.Closes) : ∃ found, Settles (form? ops) r found after := by
  cases h with
  | @definition t heading ts _ ht hheading h =>
    have hpasses : r.Passes (t :: heading ++ ts) after := hp
    obtain ⟨middle, hhead, hbody⟩ := hpasses.split
    obtain ⟨e, he⟩ := expression_of_closes hops h hbody hc hu
    obtain ⟨start, p, hkeyword, hproto⟩ := prototype_of_keyword hheading hhead
    exact ⟨_, form_of_definition ht hkeyword hproto he⟩
  | external ht hheading =>
    obtain ⟨start, p, hkeyword, hproto⟩ := prototype_of_keyword hheading hp
    exact ⟨_, form_of_external ht hkeyword hproto⟩
  | expression h =>
    obtain ⟨t, rest, rfl, ht⟩ := h.starts
    obtain ⟨e, he⟩ := expression_of_closes hops h hp hc hu
    exact ⟨_, form_of_expression hp.current_eq ht he⟩
  | separator ht => exact ⟨none, form_of_separator hp ht⟩

/-- What is read of a row without a failure is what any budget that suffices would read. -/
theorem Row.of_settles {found : Option Form} {forms : List Form} (h : Row ops n r forms none)
    (hc : r.current = some t) (ht : t.isEnd = false)
    (hsettles : Settles (form? ops) r found middle) :
    form? ops n r = .ok found middle ∧ ∃ rest, Row ops n middle rest none := by
  generalize hstop : (none : Option Failure) = stop at h
  cases h with
  | done hc' ht' =>
    cases hc.symm.trans hc'
    rw [ht] at ht'
    cases ht'
  | failed => cases hstop
  | next _ _ h hrest =>
    rcases hsettles.ok_or_exhausted n with hok | ⟨v, stop, hdeep⟩
    · cases h.symm.trans hok
      exact ⟨h, _, hrest⟩
    · cases h.symm.trans hdeep

theorem closes_of_head (hus : ∀ t ∈ us.head?, t.isSymbol ";" = true) (hp : r.Passes us after)
    (hc : after.current = some ending) (hending : ending.isEnd = true) :
    ∃ u, r.current = some u ∧ u.Closes := by
  cases us with
  | nil =>
    cases hp
    exact ⟨ending, hc, Token.closes_of_isEnd hending⟩
  | cons u us => exact ⟨u, hp.current_eq, Or.inr (Token.kind_of_isSymbol (hus u rfl))⟩

theorem spaced_of_row (hops : ops.Reachable) (h : Separated ops ts) {forms : List Form}
    (hrow : Row ops n r forms none) (hp : r.Passes ts after) (hc : after.current = some ending)
    (hending : ending.isEnd = true) : Spaced ops n r := by
  induction h generalizing r forms with
  | nil =>
    cases hp
    exact .done hc hending
  | @separator t ts ht _ ih =>
    have hpasses : r.Passes ([t] ++ ts) after := hp
    obtain ⟨middle, hone, hrest⟩ := hpasses.split
    have hopen : t.isEnd = false := by rw [Token.isEnd, Token.kind_of_isSymbol ht]
    obtain ⟨_, _, hnext⟩ := hone.fetch_single
    obtain ⟨hform, others, hothers⟩ :=
      hrow.of_settles hp.current_eq hopen (form_of_separator hone ht)
    exact .next hp.current_eq hopen hform hnext (by simp) (ih hothers hrest)
  | form htop hnext _ ih =>
    obtain ⟨middle, hone, hrest⟩ := hp.split
    obtain ⟨u, hu, hgate⟩ := closes_of_head hnext hrest hc hending
    obtain ⟨found, hsettles⟩ := form_of_closes hops htop hone hu hgate
    obtain ⟨t, rest, rfl, _, hopen⟩ := htop.starts hops
    obtain ⟨hform, others, hothers⟩ := hrow.of_settles hp.current_eq hopen hsettles
    exact .next hp.current_eq hopen hform hu (fun _ => hgate) (ih hothers hrest)

end Parse

/-! ### Sessions that come to the same -/

structure Turn.Matches (turn other : Turn σ η) : Prop where
  written : Event.written turn.events = Event.written other.events
  session : turn.session = other.session
  fault : turn.fault = other.fault

namespace Turn.Matches

variable {turn other last : Turn σ η}

theorem refl (turn : Turn σ η) : turn.Matches turn := ⟨rfl, rfl, rfl⟩

theorem trans (h : turn.Matches other) (h' : other.Matches last) : turn.Matches last :=
  ⟨h.written.trans h'.written, h.session.trans h'.session, h.fault.trans h'.fault⟩

theorem prepend (h : turn.Matches other) (events : List (Event η)) :
    Turn.Matches { turn with events := events ++ turn.events }
      { other with events := events ++ other.events } := by
  refine ⟨?_, h.session, h.fault⟩
  rw [Event.written_append, Event.written_append, h.written]

theorem round (h : turn.Matches other) (events : List (Event η)) :
    Turn.Matches { turn with events := events ++ .prompt :: turn.events }
      { other with events := events ++ .prompt :: other.events } := by
  refine ⟨?_, h.session, h.fault⟩
  simp only [Event.written_append, Event.written_prompt, h.written]

end Turn.Matches

namespace Session

variable {engine : Engine σ η} {ops : OperatorTable} {depth : Nat} {skip : Bool} {s : Session σ}
  {t u : Token}

/-- Skipping a separator comes to the same as passing it in the next round. -/
theorem finish_skipped (hr : s.reader.Standing) (hc : s.reader.current = some u) (hu : u.Closes) :
    (resume engine ops depth skip s).Matches (finish engine ops depth skip s) := by
  rcases hu with hkind | hkind
  · have hend : u.isEnd = true := by rw [Token.isEnd, hkind]
    rw [resume, advance_at_end hr.inside hc hend]
    exact .refl _
  · have hsymbol : u.isSymbol ";" = true := Token.isSymbol_of_kind hkind
    rw [resume, finish_at_separator hr hc hsymbol]
    refine ⟨?_, rfl, rfl⟩
    simp only [Event.written_append, Event.written_prompt]

/-! ### Skipping after a rejected form -/

/-- What skipping makes of a part of a session: nothing, or the session that skips moves on from
where the other stays. -/
inductive Skips (skipping staying : Turn σ η) : Prop
  | same (h : skipping = staying)
  | moved (hskipping : skipping.fault = none) (hstaying : staying.fault = none)
      (hsession : skipping.session = (staying.session.advance : List (Event η) × Session σ).2)
      (hwritten : Event.written skipping.events = Event.written staying.events ++
        Event.written (staying.session.advance : List (Event η) × Session σ).1)

theorem Skips.prepend {skipping staying : Turn σ η} (h : Skips skipping staying)
    (events : List (Event η)) :
    Skips { skipping with events := events ++ skipping.events }
      { staying with events := events ++ staying.events } := by
  cases h with
  | same h =>
    subst h
    exact .same rfl
  | moved hskipping hstaying hsession hwritten =>
    refine .moved hskipping hstaying hsession ?_
    rw [Event.written_append, Event.written_append, hwritten, List.append_assoc]

theorem conclude_skips (kind : FormKind) (s : Session σ) (verdict : Verdict) :
    Skips (conclude true kind s verdict : Turn σ η) (conclude false kind s verdict) := by
  cases verdict with
  | rejected d => exact .moved rfl rfl rfl rfl
  | _ => exact .same rfl

theorem accept_skips (engine : Engine σ η) (s : Session σ) (kind : FormKind) (form : Form) :
    Skips (accept engine true s kind form) (accept engine false s kind form) := by
  rw [accept_eq, accept_eq]
  exact (conclude_skips kind _ _).prepend _

/-- What cannot be read is skipped in any case. -/
theorem handle_skips (engine : Engine σ η) (ops : OperatorTable) (depth : Nat) (s : Session σ)
    (kind : FormKind) :
    Skips (handle engine ops depth true s kind) (handle engine ops depth false s kind) := by
  cases hread : kind.read ops depth s.reader with
  | error failure after =>
    rw [handle_of_error hread, handle_of_error hread]
    exact .same rfl
  | ok form after =>
    have haccept := (accept_skips engine { s with reader := after } kind form).prepend
      ((s.reader.consumed after).flatMap itemEvents ++ [.form form])
    rw [handle_of_ok hread, handle_of_ok hread]
    simpa only [List.append_assoc, List.singleton_append] using haccept

/-- The session that skips and the one that stays come to the same from any state on from which all
forms are left at a semicolon or at the end. -/
theorem finish_matches (hr : s.reader.Standing) (h : Parse.Spaced ops depth s.reader) :
    (finish engine ops depth true s).Matches (finish engine ops depth false s) := by
  generalize hreader : s.reader = r at h
  induction h generalizing s with
  | done hc ht =>
    subst hreader
    have hend : s.reader.token.isEnd = true := by rw [token_of_some hc, ht]
    rw [finish_of_end hend, finish_of_end hend]
    exact .refl _
  | @next r middle t u found hc ht h hu hgate _ ih =>
    subst hreader
    have hopen : s.reader.token.isEnd = false := by rw [token_of_some hc, ht]
    obtain ⟨_, hmiddle⟩ := step_of_form_ok engine hc ht h
    obtain ⟨hstanding, _⟩ := step_less engine ops depth false hr hopen
    have hrest := ih hstanding hmiddle
    have hlockstep : step engine ops depth true s = step engine ops depth false s →
        (finish engine ops depth true s).Matches (finish engine ops depth false s) := by
      intro hsame
      cases hf : (step engine ops depth false s).fault with
      | some trap =>
        rw [finish_of_fault hopen (hsame ▸ hf), finish_of_fault hopen hf, hsame]
        exact .refl _
      | none =>
        rw [finish_of_step hr hopen (hsame ▸ hf), finish_of_step hr hopen hf, hsame]
        exact hrest.round _
    cases hsymbol : t.isSymbol ";" with
    | true =>
      apply hlockstep
      rw [step_of_separator hc hsymbol, step_of_separator hc hsymbol]
    | false =>
      have hfound : found.isSome = true := by
        rw [Parse.form_kind_eq hc ht hsymbol] at h
        obtain ⟨form, _, rfl⟩ := step_map_eq_ok h
        rfl
      have hskips := handle_skips engine ops depth s (.ofToken t)
      rw [← step_of_form hc hsymbol, ← step_of_form hc hsymbol] at hskips
      cases hskips with
      | same hsame => exact hlockstep hsame
      | moved hskipping hstaying hsession hwritten =>
        -- The one session passes the gate in its recovery and the other in its next round.
        let stay := (step engine ops depth false s).session
        have hcurrent : stay.reader.current = some u := hmiddle ▸ hu
        have hall :
            (resume engine ops depth true stay).Matches (finish engine ops depth false stay) :=
          (finish_skipped hstanding hcurrent (hgate hfound)).trans hrest
        rw [finish_of_step hr hopen hskipping, finish_of_step hr hopen hstaying, hsession]
        refine ⟨?_, hall.session, hall.fault⟩
        have hbehind := hall.written
        simp only [resume, Event.written_append] at hbehind
        simp only [Event.written_append, Event.written_prompt, hwritten, List.append_assoc]
        rw [hbehind]

/-- Whole sessions over a source whose forms can be read and are separated. The budget may be larger
than the one that is known to suffice. -/
theorem run_matches (engine : Engine σ η) {ops : OperatorTable} (hops : ops.Reachable) {n m : Nat}
    (hle : n ≤ m) (store : σ) {file : String} {source : List Char} {forms : List Form}
    {tokens : List Token} {ending : Token}
    (hall : (Parse.all ops n).result (.ofSource file source) = .ok forms)
    (htokens : tokenize file source = .ok (tokens ++ [ending])) (hending : ending.isEnd = true)
    (hseparated : Separated ops tokens) :
    (run engine ops m true store (lexemes file source)).Matches
      (run engine ops m false store (lexemes file source)) := by
  have hinside := Reader.inside_ofSource file source
  obtain ⟨t, first, after, hfetch, hp, hc⟩ := Parse.passes_of_tokenize htokens
  have hspaced : Parse.Spaced ops.freeze m first := by
    cases Parse.wholeRow_of_all hinside hall with
    | start hfirst hrow =>
      cases hfetch.symm.trans hfirst
      exact (Parse.spaced_of_row hops hseparated hrow hp hc hending).mono (fun _ => rfl) hle
  obtain ⟨hstanding, _⟩ := Parse.standing_of_fetch hinside hfetch
  let start : Session σ := { reader := .ofSource file source, store }
  obtain ⟨hmoved, _⟩ := advance_of_fetch_ok (η := η) (s := start) hfetch
  have hfinish : (finish engine ops.freeze m true (start.advance : List (Event η) × _).2).Matches
      (finish engine ops.freeze m false (start.advance : List (Event η) × _).2) := by
    rw [hmoved]
    exact finish_matches hstanding hspaced
  rw [run_eq_resume, run_eq_resume]
  exact (hfinish.prepend _).prepend [.prompt]

end Session

open Interpreter in
/-- Where all forms of a source can be read and each stands before a semicolon or before the end, it
makes no difference whether a session skips a token after a form that is rejected: it counts the
same, writes the same on both outputs, leaves the same store and ends with a fault if the other
does, whichever forms are rejected, when they are lowered or when they are executed. -/
theorem separated_sources_need_no_skipping (natives : Ledger String Native) (limit : Nat)
    {ops : OperatorTable} (hops : ops.Reachable) {n m : Nat} (hle : n ≤ m) (store : Store Code)
    {shown : Presentation} (hshown : shown.Plain) {file : String} {source : List Char}
    {forms : List Form} {tokens : List Token} {ending : Token}
    (hall : (Parse.all ops n).result (.ofSource file source) = .ok forms)
    (htokens : tokenize file source = .ok (tokens ++ [ending])) (hending : ending.isEnd = true)
    (hseparated : Separated ops tokens) :
    let skipping := Session.run (engine natives limit) ops m true store (lexemes file source)
    let staying := Session.run (engine natives limit) ops m false store (lexemes file source)
    skipping.session.stats = staying.session.stats ∧
    Event.outText describe shown skipping.events = Event.outText describe shown staying.events ∧
    Event.errText shown skipping.events = Event.errText shown staying.events ∧
    skipping.session.store = staying.session.store ∧ skipping.fault = staying.fault := by
  intro skipping staying
  have hmatches : skipping.Matches staying :=
    Session.run_matches (engine natives limit) hops hle store hall htokens hending hseparated
  refine ⟨congrArg Session.stats hmatches.session, ?_, ?_, congrArg Session.store hmatches.session,
    hmatches.fault⟩
  · rw [← Event.outText_written, hmatches.written, Event.outText_written]
  · rw [← Event.errText_written hshown, hmatches.written, Event.errText_written hshown]

section

open Interpreter

def tokenAt (column : Nat) (kind : TokenKind) (lexeme : String) : Token :=
  ⟨kind, lexeme, some ⟨"", 1, column, column - 1⟩⟩

def rejectedSource : List Char := "extern g(); g(); y".toList

def rejectedTokens : List Token :=
  [tokenAt 1 .external "extern", tokenAt 8 (.identifier "g") "g", tokenAt 9 (.symbol "(") "(",
    tokenAt 10 (.symbol ")") ")", tokenAt 11 (.symbol ";") ";", tokenAt 13 (.identifier "g") "g",
    tokenAt 14 (.symbol "(") "(", tokenAt 15 (.symbol ")") ")", tokenAt 16 (.symbol ";") ";",
    tokenAt 18 (.identifier "y") "y"]

theorem separated_rejectedTokens : Separated .standard rejectedTokens := by
  have hheading : Heading [tokenAt 8 (.identifier "g") "g", tokenAt 9 (.symbol "(") "(",
      tokenAt 10 (.symbol ")") ")"] :=
    @Heading.mk _ _ _ _ [] [] rfl (by decide) rfl List.nodup_nil (by decide)
  have hcall : Derives .standard .primary [tokenAt 13 (.identifier "g") "g",
      tokenAt 14 (.symbol "(") "(", tokenAt 15 (.symbol ")") ")"] _ :=
    .emptyCall rfl (by decide) (by decide)
  have hname : Derives .standard .primary [tokenAt 18 (.identifier "y") "y"] _ := .name rfl
  have hlast : Separated .standard [tokenAt 18 (.identifier "y") "y"] :=
    @Separated.form _ _ [] _ (.expression (.expression hname .noTail)) (by simp) .nil
  have hmiddle := Separated.form (.expression (.expression hcall .noTail)) (by simp; decide)
    (Separated.separator (t := tokenAt 16 (.symbol ";") ";") (by decide) hlast)
  exact .form (.external rfl hheading) (by simp; decide)
    (.separator (t := tokenAt 11 (.symbol ";") ";") (by decide) hmiddle)

set_option maxRecDepth 20000 in
theorem rejected_tokens_session :
    tokenize "" rejectedSource = .ok (rejectedTokens ++ [tokenAt 18 .eof ""]) ∧
    ((Parse.all .standard 9).result (.ofSource "" rejectedSource)).isOk = true ∧
    (Session.run (engine [] 9) .standard 9 true {} (lexemes "" rejectedSource)).session.stats.errors
      = 2 := by
  refine ⟨by cbv, by cbv, by cbv⟩

/-- A call that is rejected when it is executed, and a name that is rejected when it is lowered and
stands before the end. -/
theorem separated_sources_need_no_skipping_rejected_forms :
    let skipping := Session.run (engine [] 9) .standard 9 true {} (lexemes "" rejectedSource)
    let staying := Session.run (engine [] 9) .standard 9 false {} (lexemes "" rejectedSource)
    (Session.run (engine [] 9) .standard 9 true {} (lexemes "" rejectedSource)).session.stats.errors
      = 2 ∧ ∃ forms tokens ending,
      ((Parse.all .standard 9).result (.ofSource "" rejectedSource) = .ok forms ∧
        tokenize "" rejectedSource = .ok (tokens ++ [ending]) ∧ ending.isEnd = true ∧
        Separated .standard tokens) ∧
      skipping.session.stats = staying.session.stats ∧
      Event.outText describe {} skipping.events = Event.outText describe {} staying.events ∧
      Event.errText {} skipping.events = Event.errText {} staying.events ∧
      skipping.session.store = staying.session.store ∧ skipping.fault = staying.fault := by
  intro skipping staying
  obtain ⟨htokens, hok, herrors⟩ := rejected_tokens_session
  obtain ⟨forms, hall⟩ : ∃ forms,
      (Parse.all .standard 9).result (.ofSource "" rejectedSource) = .ok forms := by
    cases hresult : (Parse.all .standard 9).result (.ofSource "" rejectedSource) with
    | error failure =>
      rw [hresult] at hok
      cases hok
    | ok forms => exact ⟨forms, rfl⟩
  have hplain : Presentation.Plain {} := ⟨rfl, rfl⟩
  have hmain := separated_sources_need_no_skipping [] 9 .standard (le_refl 9) {} hplain hall htokens
    rfl separated_rejectedTokens
  exact ⟨herrors, forms, _, _, ⟨hall, htokens, rfl, separated_rejectedTokens⟩, hmain⟩

end
end ScalarLang
