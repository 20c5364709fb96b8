import ScalarLang.Proofs.Session.Alike
import ScalarLang.Proofs.Session.Segments
import ScalarLang.Proofs.Token.Juncture

/-!
# Sessions compose at a separator

A session over two sources with a semicolon between them does what two sessions do, one after the
other on the same store. The session over the first source and the session over both go alike until
the one is at its end and the other at the semicolon; from there on the other goes alike with the
session over the second source, and both come to their ends.
-/
namespace ScalarLang

variable {σ η : Type}

/-! ### The rest of a session -/

namespace Session

variable {engine : Engine σ η} {ops : OperatorTable} {depth : Nat} {skip : Bool} {s : Session σ}

/-- More rounds than a session needs change nothing. -/
theorem runFrom_congr {fuel fuel' : Nat} (hr : s.reader.Standing)
    (hfuel : s.reader.unread.length < fuel) (hfuel' : s.reader.unread.length < fuel') :
    runFrom engine ops depth skip fuel s = runFrom engine ops depth skip fuel' s := by
  induction fuel generalizing fuel' s with
  | zero => exact absurd hfuel (Nat.not_lt_zero _)
  | succ fuel ih =>
    obtain ⟨fuel', rfl⟩ : ∃ k, fuel' = k + 1 := ⟨fuel' - 1, by omega⟩
    cases hend : s.reader.token.isEnd with
    | true => rw [runFrom_of_end hend, runFrom_of_end hend]
    | false =>
      cases hf : (step engine ops depth skip s).fault with
      | some trap => rw [runFrom_of_fault hend hf, runFrom_of_fault hend hf]
      | none =>
        obtain ⟨hstanding, hless⟩ := step_less engine ops depth skip hr hend
        have hrest := @ih _ fuel' hstanding (by omega) (by omega)
        rw [runFrom_of_step hend hf, runFrom_of_step hend hf, hrest]

variable (engine ops depth skip)

/-- Goes on to the end of the input, with as many rounds as are needed. -/
def finish (s : Session σ) : Turn σ η :=
  runFrom engine ops depth skip (s.reader.unread.length + 1) s

/-- Moves on to the next token, and then goes on to the end of the input. -/
def resume (s : Session σ) : Turn σ η :=
  let moved : List (Event η) × Session σ := s.advance
  let turn := finish engine ops depth skip moved.2
  { turn with events := moved.1 ++ turn.events }

variable {engine ops depth skip}

theorem finish_of_end (h : s.reader.token.isEnd = true) :
    finish engine ops depth skip s = ⟨[.farewell], s, none⟩ := runFrom_of_end h _

theorem finish_of_fault (h : s.reader.token.isEnd = false) {trap : Trap}
    (hf : (step engine ops depth skip s).fault = some trap) :
    finish engine ops depth skip s = step engine ops depth skip s := runFrom_of_fault h hf _

theorem finish_of_step (hr : s.reader.Standing) (h : s.reader.token.isEnd = false)
    (hf : (step engine ops depth skip s).fault = none) :
    let turn := step engine ops depth skip s
    let rest := finish engine ops depth skip turn.session
    finish engine ops depth skip s =
      { rest with events := turn.events ++ .prompt :: rest.events } := by
  intro turn rest
  obtain ⟨hstanding, hless⟩ := step_less engine ops depth skip hr h
  have hrest : runFrom engine ops depth skip s.reader.unread.length turn.session = rest :=
    runFrom_congr hstanding hless (Nat.lt_succ_self _)
  rw [finish, runFrom_of_step h hf, hrest]

theorem advance_at_end (hr : s.reader.Inside) {t : Token} (hc : s.reader.current = some t)
    (ht : t.isEnd = true) : (s.advance : List (Event η) × Session σ) = ([], s) := by
  have ha := hr.ahead_of_end hc ht
  have hnone := hr.current_of_nil ha
  have hreader : { s.reader with current := some s.reader.ending, ahead := [] } = s.reader := by
    rw [← hnone, ← ha]
  simp only [advance, ha, advanceOver, hreader]

theorem finish_at_separator (hr : s.reader.Standing) {t : Token} (hc : s.reader.current = some t)
    (ht : t.isSymbol ";" = true) :
    let moved : List (Event η) × Session σ := s.advance
    let rest := finish engine ops depth skip moved.2
    finish engine ops depth skip s = { rest with events := moved.1 ++ .prompt :: rest.events } := by
  have hopen : s.reader.token.isEnd = false := by
    rw [token_of_some hc, Token.isEnd, Token.kind_of_isSymbol ht]
  have hstep : step engine ops depth skip s = _ := step_of_separator hc ht
  rw [finish_of_step hr hopen (by rw [hstep]), hstep]

theorem run_eq_resume (engine : Engine σ η) (ops : OperatorTable) (depth : Nat) (skip : Bool)
    (store : σ) (file : String) (source : List Char) :
    let turn := resume engine ops.freeze depth skip { reader := .ofSource file source, store }
    run engine ops depth skip store (lexemes file source) =
      { turn with events := .prompt :: turn.events } := by
  intro turn
  obtain ⟨hstanding, hfuel⟩ := start_standing η store file source
  have hrun := run_eq engine ops depth skip store (lexemes file source)
  dsimp only at hrun
  rw [← Reader.ofSource, runFrom_congr hstanding hfuel (Nat.lt_succ_self _)] at hrun
  exact hrun

end Session

/-! ### What a session leaves -/

/-- What a part of a session leaves behind: its entries, the store after it, and its fault. -/
structure Legacy (σ : Type) where
  entries : List Entry
  store : σ
  fault : Option Trap

/-- What a part of a session leaves behind, with a store that has forgotten something. -/
def Turn.legacy (describe : η → String) (forget : σ → σ) (turn : Turn σ η) : Legacy σ :=
  ⟨Event.entries describe turn.events, forget turn.session.store, turn.fault⟩

/-- What is left behind after some entries. -/
def Legacy.after (legacy : Legacy σ) (entries : List Entry) : Legacy σ :=
  { legacy with entries := entries ++ legacy.entries }

theorem Legacy.after_after (legacy : Legacy σ) (entries earlier : List Entry) :
    (legacy.after entries).after earlier = legacy.after (earlier ++ entries) := by
  simp only [after, List.append_assoc]

theorem Turn.legacy_prepend (describe : η → String) (forget : σ → σ) (turn : Turn σ η)
    (events : List (Event η)) :
    Turn.legacy describe forget { turn with events := events ++ turn.events } =
      (turn.legacy describe forget).after (Event.entries describe events) := by
  simp only [legacy, Legacy.after, Event.entries_append]

namespace Session

variable {engine : Engine σ η} {ops : OperatorTable} {depth : Nat} {skip : Bool} {s s' : Session σ}
  {gate : Token} {beyond : List Lexeme} {forget : σ → σ} {n : Nat}

theorem legacy_run (describe : η → String) (forget : σ → σ) (engine : Engine σ η)
    (ops : OperatorTable) (depth : Nat) (skip : Bool) (store : σ) (file : String)
    (source : List Char) :
    (run engine ops depth skip store (lexemes file source)).legacy describe forget =
      (resume engine ops.freeze depth skip { reader := .ofSource file source, store }).legacy
        describe forget := by
  rw [run_eq_resume]
  rfl

/-- At a gate a session moves on. -/
theorem finish_at_gate (describe : η → String) (forget : σ → σ) (hgate : gate.Closes)
    (hr : s.reader.Standing) (hat : s.AtGate gate beyond) :
    (finish engine ops depth skip s).legacy describe forget =
      (resume engine ops depth skip s).legacy describe forget := by
  rcases hgate with hkind | hkind
  · have hend : gate.isEnd = true := by rw [Token.isEnd, hkind]
    rw [resume, advance_at_end hr.inside hat.current hend]
    rfl
  · have hsymbol : gate.isSymbol ";" = true := Token.isSymbol_of_kind hkind
    rw [finish_at_separator hr hat.current hsymbol, resume]
    simp only [Turn.legacy, Event.entries_append, Event.entries_prompt]

/-! ### Two sessions up to the gate -/

/-- What becomes of two sessions that go alike: both are cut by the same fault, or the one comes to
its end and the other to the gate, from where it moves on. -/
inductive Continues (engine : Engine σ η) (ops : OperatorTable) (depth : Nat) (skip : Bool)
    (gate : Token) (beyond : List Lexeme) (forget : σ → σ) (turn turn' : Turn σ η) : Prop
  | cut (hfault : turn.fault ≠ none)
      (h : turn'.legacy engine.describe forget = turn.legacy engine.describe forget)
  | passed {s : Session σ} (hfault : turn.fault = none) (hat : s.AtGate gate beyond)
      (hnext : (s.advance : List (Event η) × Session σ).2.reader.Standing)
      (hstore : forget s.store = forget turn.session.store)
      (h : turn'.legacy engine.describe forget =
        ((resume engine ops depth skip s).legacy engine.describe forget).after
          (Event.entries engine.describe turn.events))

theorem Continues.prepend {turn turn' : Turn σ η}
    (h : Continues engine ops depth skip gate beyond forget turn turn')
    (events events' : List (Event η))
    (hevents : Event.entries engine.describe events' = Event.entries engine.describe events) :
    Continues engine ops depth skip gate beyond forget
      { turn with events := events ++ turn.events }
      { turn' with events := events' ++ turn'.events } := by
  cases h with
  | cut hfault h =>
    refine .cut hfault ?_
    rw [Turn.legacy_prepend, Turn.legacy_prepend, h, hevents]
  | passed hfault hat hnext hstore h =>
    refine .passed hfault hat hnext hstore ?_
    rw [Turn.legacy_prepend, h, hevents, Legacy.after_after, Event.entries_append]

theorem finish_alike (hengine : engine.IgnoresPlaces forget) (hgate : gate.Closes)
    (hops : Parse.Closed ops) (hr : s.reader.Standing) (hr' : s'.reader.Standing)
    (h : Reader.Alike gate beyond s.reader s'.reader n)
    (hstore : forget s'.store = forget s.store) :
    Continues engine ops depth skip gate beyond forget (finish engine ops depth skip s)
      (finish engine ops depth skip s') := by
  -- The induction is on what the one session has not read. A step takes it on with the other, or to
  -- its end while the other skips the gate.
  induction hk : s.reader.unread.length using Nat.strong_induction_on generalizing s s' n with
  | _ k ih =>
    have halike := h
    cases h with
    | reached hc hc' ha ha' ht hlast =>
      obtain ⟨_, hmoved⟩ := advance_movedOn (η := η) hr'.inside
      have hend : finish engine ops depth skip s = _ :=
        finish_of_end (by rw [token_of_some hc, ht])
      have hat : s'.AtGate gate beyond := ⟨hc', ha'⟩
      rw [hend]
      exact .passed rfl hat hmoved.standing hstore
        (finish_at_gate engine.describe forget hgate hr' hat)
    | @inside t u stop items others notes own hc hc' ht ha ha' hitems hstop hlast =>
      have hopen : s.reader.token.isEnd = false := by
        rw [token_of_some hc]
        cases items with
        | nil => exact hr.inside.isEnd_of_cons hc ha
        | cons _ _ => exact hr.inside.isEnd_of_cons hc ha
      have hopen' : s'.reader.token.isEnd = false := by
        rw [token_of_some hc']
        cases others with
        | nil => exact hr'.inside.isEnd_of_cons hc' ha'
        | cons _ _ => exact hr'.inside.isEnd_of_cons hc' ha'
      obtain ⟨hstanding, hless⟩ := step_less engine ops depth skip hr hopen
      obtain ⟨hstanding', _⟩ := step_less engine ops depth skip hr' hopen'
      have hstep : Turn.Alike gate beyond engine.describe forget (step engine ops depth skip s)
          (step engine ops depth skip s') :=
        step_alike hengine hgate hops halike (Nat.succ_ne_zero _) hstore
      cases hstep with
      | on hreader hfault hafter hentries =>
        cases hf : (step engine ops depth skip s).fault with
        | some trap =>
          rw [hf] at hfault
          rw [finish_of_fault hopen hf, finish_of_fault hopen' hfault]
          refine .cut (by rw [hf]; simp) ?_
          rw [Turn.legacy, Turn.legacy, hentries, hafter, hf, hfault]
        | none =>
          rw [hf] at hfault
          have hrest := ih _ (hk ▸ hless) hstanding hstanding' hreader hafter rfl
          have hmore := hrest.prepend
            ((step engine ops depth skip s).events ++ [.prompt])
            ((step engine ops depth skip s').events ++ [.prompt]) (by simp [hentries])
          rw [finish_of_step hr hopen hf, finish_of_step hr' hopen' hfault]
          simpa using hmore
      | past hend hf hfault hat hafter hsession hentries =>
        rw [finish_of_step hr hopen hf, finish_of_step hr' hopen' hfault, finish_of_end hend]
        refine .passed rfl hat (hsession ▸ hstanding') hafter ?_
        simp only [Turn.legacy, Legacy.after, resume, hsession, hentries, Event.entries_append,
          Event.entries_prompt, Event.entries_farewell, Event.entries_nil, List.append_nil,
          List.append_assoc]

theorem resume_alike (hengine : engine.IgnoresPlaces forget) (hgate : gate.Closes)
    (hops : Parse.Closed ops) {stop : Token} {items others : List Lexeme} {notes own : List Note}
    (hr : s.reader.Inside) (hr' : (s'.advance : List (Event η) × Session σ).2.reader.Standing)
    (ha : s.reader.ahead = items ++ [⟨notes, .token stop⟩])
    (ha' : s'.reader.ahead = others ++ ⟨own, .token gate⟩ :: beyond)
    (hitems : others.map Lexeme.bare = items.map Lexeme.bare) (hstop : stop.isEnd = true)
    (hstore : forget s'.store = forget s.store) :
    Continues engine ops depth skip gate beyond forget (resume engine ops depth skip s)
      (resume engine ops depth skip s') := by
  have hlast : s.reader.ending.isEnd = true := by
    rw [hr.ending stop (Or.inr ⟨notes, by simp [ha]⟩) hstop]
    exact hstop
  obtain ⟨hentries, hsame, n, halike⟩ := advance_alike engine.describe s s' ha ha' hitems hstop
    hlast hstore
  obtain ⟨_, hmoved⟩ := advance_movedOn (η := η) hr
  exact (finish_alike hengine hgate hops hmoved.standing hr' halike hsame).prepend _ _ hentries

theorem resume_at_end (describe : η → String) (forget : σ → σ) (hat : s.AtGate gate [])
    (hnext : (s.advance : List (Event η) × Session σ).2.reader.Standing) :
    (resume engine ops depth skip s).legacy describe forget = ⟨[], forget s.store, none⟩ := by
  have hmoved : (s.advance : List (Event η) × Session σ) = ([], { s with
      reader := { s.reader with current := some s.reader.ending, ahead := [] } }) := by
    rw [advance, hat.ahead, advanceOver]
  rw [hmoved] at hnext
  have hend : s.reader.ending.isEnd = true := hnext.inside.isEnd_of_nil rfl
  rw [resume, hmoved]
  dsimp only
  rw [finish_of_end (by exact hend)]
  rfl

theorem resume_congr (hengine : engine.IgnoresPlaces forget) (hops : Parse.Closed ops)
    {file : String} {source : List Char} (hreader : s.reader = .ofSource file source)
    (hr' : (s'.advance : List (Event η) × Session σ).2.reader.Standing)
    (hitems : s'.reader.ahead.map Lexeme.bare = (lexemes file source).map Lexeme.bare)
    (hstore : forget s'.store = forget s.store) :
    (resume engine ops depth skip s').legacy engine.describe forget =
      (resume engine ops depth skip s).legacy engine.describe forget := by
  have hr : s.reader.Inside := hreader ▸ Reader.inside_ofSource file source
  have ha : s.reader.ahead = lexemes file source := by rw [hreader]; rfl
  obtain ⟨front, notes, stop, hlexemes, hstop⟩ := (endsOnce_lexemes file source).exists_last
  rw [hlexemes, List.map_append] at hitems
  obtain ⟨front', rest, ha', hfront, hrest⟩ := List.map_eq_append_iff.1 hitems
  obtain ⟨last, rfl, hbare⟩ := List.map_eq_singleton_iff.1 hrest
  obtain ⟨own, item⟩ := last
  -- The end of the one list of items is the gate in the other, with nothing beyond it.
  rcases Item.cases_of_unplaced hbare with ⟨t, gate, hone, rfl, ht⟩ | ⟨_, _, hone, _, _⟩
  · cases hone
    have hgate : gate.isEnd = true := by
      rw [Token.isEnd, ← Token.kind_eq_of_unplaced ht]
      exact hstop
    have hcontinues : Continues engine ops depth skip gate [] forget
        (resume engine ops depth skip s) (resume engine ops depth skip s') :=
      resume_alike hengine (Token.closes_of_isEnd hgate) hops hr hr' (ha.trans hlexemes) ha' hfront
        hstop hstore
    cases hcontinues with
    | cut _ h => exact h
    | passed hfault hat hnext hsame h =>
      rw [h, resume_at_end engine.describe forget hat hnext, hsame, Turn.legacy, hfault,
        Legacy.after, List.append_nil]
  · cases hone

/-- A session over two sources with a line feed and a semicolon between them, where the first source
alone would not have ended with a fault. -/
theorem run_append (hengine : engine.IgnoresPlaces forget) (hops : Parse.Closed ops.freeze)
    (store : σ) (file : String) (first second : List Char)
    (hfault : (run engine ops depth skip store (lexemes file first)).fault = none) :
    let turn := run engine ops depth skip store (lexemes file first)
    (run engine ops depth skip store (lexemes file (first ++ '\n' :: ';' :: second))).legacy
        engine.describe forget =
      ((run engine ops.freeze depth skip turn.session.store (lexemes file second)).legacy
        engine.describe forget).after (Event.entries engine.describe turn.events) := by
  intro turn
  obtain ⟨front, ending, front', own, location, beyond, hfirst, hending, hwhole, hfront, hbeyond⟩ :=
    lexemes_append file first second
  obtain ⟨notes, stop, rfl, hstop⟩ := ending.exists_token_of_isEnd hending
  let start : Session σ := { reader := .ofSource file first, store }
  let whole : Session σ := { reader := .ofSource file (first ++ '\n' :: ';' :: second), store }
  let next : Session σ := { reader := .ofSource file second, store := turn.session.store }
  have hturn : turn = _ := run_eq_resume engine ops depth skip store file first
  have hnone : (resume engine ops.freeze depth skip start).fault = none :=
    (congrArg Turn.fault hturn).symm.trans hfault
  have hentries : Event.entries engine.describe turn.events =
      Event.entries engine.describe (resume engine ops.freeze depth skip start).events :=
    congrArg (fun turn => Event.entries engine.describe turn.events) hturn
  have hcontinues : Continues engine ops.freeze depth skip ⟨.symbol ";", ";", location⟩ beyond
      forget (resume engine ops.freeze depth skip start)
      (resume engine ops.freeze depth skip whole) :=
    resume_alike hengine (Or.inr rfl) hops (Reader.inside_ofSource file first)
      (start_standing η store file _).1 hfirst hwhole hfront hstop rfl
  cases hcontinues with
  | cut hcut _ => exact absurd hnone hcut
  | @passed s _ hat hnext hstore h =>
    have hkept : forget s.store = forget next.store :=
      hstore.trans (congrArg (fun turn => forget turn.session.store) hturn).symm
    have hrest : (resume engine ops.freeze depth skip s).legacy engine.describe forget =
        (resume engine ops.freeze depth skip next).legacy engine.describe forget :=
      resume_congr hengine hops rfl hnext (by rw [hat.ahead, hbeyond]) hkept
    rw [legacy_run, legacy_run, hentries, h, hrest]
    rfl

end Session

open Interpreter in
/-- A session with the interpreter over two sources with a line feed and a semicolon between them.
The first source may end anywhere: inside a form, a list of parameters, a malformed literal or a
comment. Unless it ends a session of its own with a fault, the session over both does what one
session after the other does: it counts and writes the same, leaves the same store up to places, and
ends with a fault if the second one does. -/
theorem sessions_compose_at_a_separator (natives : Ledger String Native) (limit depth : Nat)
    (skip : Bool) (shown : Presentation) {ops : OperatorTable} (hops : ops.Reachable)
    (store : Store Code) (file : String) (first second : List Char)
    (hfault :
      (Session.run (engine natives limit) ops depth skip store (lexemes file first)).fault = none) :
    let one := Session.run (engine natives limit) ops depth skip store (lexemes file first)
    let two := Session.run (engine natives limit) ops.freeze depth skip one.session.store
      (lexemes file second)
    let both := Session.run (engine natives limit) ops depth skip store
      (lexemes file (first ++ "\n;".toList ++ second))
    both.session.stats = one.session.stats.append two.session.stats ∧
    Event.outText describe shown both.events =
      Event.outText describe shown one.events ++ Event.outText describe shown two.events ∧
    both.session.store.unplaced = two.session.store.unplaced ∧
    both.fault = two.fault := by
  intro one two both
  have hlegacy : both.legacy describe Store.unplaced =
      (two.legacy describe Store.unplaced).after (Event.entries describe one.events) := by
    have hsource : first ++ "\n;".toList ++ second = first ++ '\n' :: ';' :: second := by simp
    simp only [both, hsource]
    exact Session.run_append (ignoresPlaces natives limit) (Parse.closed_of_reachable hops.freeze)
      store file first second hfault
  have hentries : Event.entries describe both.events =
      Event.entries describe one.events ++ Event.entries describe two.events :=
    congrArg Legacy.entries hlegacy
  refine ⟨?_, ?_, congrArg Legacy.store hlegacy, congrArg Legacy.fault hlegacy⟩
  · have htally := fun table store items =>
      Session.run_tally (engine natives limit) describe table depth skip store items
    simp only [both, one, two] at hentries ⊢
    rw [htally, htally, htally, hentries, List.foldl_append, Stats.foldl_enter_eq]
  · rw [Event.outText_eq, Event.outText_eq, Event.outText_eq, hentries, List.map_append]
    simp

section

open Interpreter

set_option maxRecDepth 20000 in
theorem open_call_session :
    let one := Session.run (engine Native.standard depthLimit) .standard Parse.depthLimit true {}
      (lexemes "<stdin>" "def f(x) x f(1 # one".toList)
    let both := Session.run (engine Native.standard depthLimit) .standard Parse.depthLimit true {}
      (lexemes "<stdin>" ("def f(x) x f(1 # one".toList ++ "\n;".toList ++ "f(2)".toList))
    one.fault = none ∧ one.session.stats.errors = 1 ∧ both.session.stats.errors = 1 ∧
      both.session.stats.evaluations = 1 := by
  decide +kernel

/-- The first source ends in a comment inside a call. That is one error, and the second source uses
the definition in front of it. -/
theorem sessions_compose_at_a_separator_open_call :
    let one := Session.run (engine Native.standard depthLimit) .standard Parse.depthLimit true {}
      (lexemes "<stdin>" "def f(x) x f(1 # one".toList)
    let two := Session.run (engine Native.standard depthLimit) OperatorTable.standard.freeze
      Parse.depthLimit true one.session.store (lexemes "<stdin>" "f(2)".toList)
    let both := Session.run (engine Native.standard depthLimit) .standard Parse.depthLimit true {}
      (lexemes "<stdin>" ("def f(x) x f(1 # one".toList ++ "\n;".toList ++ "f(2)".toList))
    (one.fault = none ∧ one.session.stats.errors = 1 ∧ both.session.stats.errors = 1 ∧
      both.session.stats.evaluations = 1) ∧
    both.session.stats = one.session.stats.append two.session.stats ∧
    both.session.store.unplaced = two.session.store.unplaced ∧ both.fault = two.fault := by
  obtain ⟨hstats, _, hends⟩ := sessions_compose_at_a_separator Native.standard depthLimit
    Parse.depthLimit true {} .standard {} "<stdin>" "def f(x) x f(1 # one".toList "f(2)".toList
    open_call_session.1
  exact ⟨open_call_session, hstats, hends⟩

end
end ScalarLang
