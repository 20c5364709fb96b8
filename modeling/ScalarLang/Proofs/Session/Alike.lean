import ScalarLang.Proofs.Interpreter.Unplaced
import ScalarLang.Proofs.Parse.Alike
import ScalarLang.Proofs.Session.Loops

/-!
# Sessions go alike up to a gate

Two sessions with the same items in front of them, up to places, and stores that are the same up to
places: a step does the same in both, and leaves the same entries, until the one comes to the end of
its input and the other to the gate. A token that is skipped after a failure can be that gate, and
then the other session has moved on beyond it.
-/
namespace ScalarLang

variable {σ η : Type}

/-- The session stands on a gate, with more beyond it. -/
structure Session.AtGate (gate : Token) (beyond : List Lexeme) (s : Session σ) : Prop where
  current : s.reader.current = some gate
  ahead : s.reader.ahead = beyond

/-- Two turns that are alike: both sessions go on alike, or the one is at its end and the other has
been at the gate and moved on. -/
inductive Turn.Alike (gate : Token) (beyond : List Lexeme) (describe : η → String)
    (forget : σ → σ) (turn turn' : Turn σ η) : Prop
  | on {n : Nat} (hreader : Reader.Alike gate beyond turn.session.reader turn'.session.reader n)
      (hfault : turn'.fault = turn.fault)
      (hstore : forget turn'.session.store = forget turn.session.store)
      (hentries : Event.entries describe turn'.events = Event.entries describe turn.events)
  | past {s : Session σ} (hend : turn.session.reader.token.isEnd = true)
      (hfault : turn.fault = none) (hfault' : turn'.fault = none) (hgate : s.AtGate gate beyond)
      (hstore : forget s.store = forget turn.session.store)
      (hsession : turn'.session = (s.advance : List (Event η) × Session σ).2)
      (hentries : Event.entries describe turn'.events =
        Event.entries describe turn.events ++
          Event.entries describe (s.advance : List (Event η) × Session σ).1)

section

variable {gate : Token} {beyond : List Lexeme} {describe : η → String} {forget : σ → σ}
  {s s' : Session σ} {n : Nat}

theorem Turn.Alike.prepend {turn turn' : Turn σ η}
    (h : turn.Alike gate beyond describe forget turn') (events events' : List (Event η))
    (hevents : Event.entries describe events' = Event.entries describe events) :
    Turn.Alike gate beyond describe forget { turn with events := events ++ turn.events }
      { turn' with events := events' ++ turn'.events } := by
  cases h with
  | on hreader hfault hstore hentries =>
    refine .on hreader hfault hstore ?_
    simp only [Event.entries_append, hevents, hentries]
  | past hend hfault hfault' hgate hstore hsession hentries =>
    refine .past hend hfault hfault' hgate hstore hsession ?_
    simp only [Event.entries_append, hevents, hentries, List.append_assoc]

namespace Session

/-! ### Moving on -/

theorem advanceOver_alike (gate : Token) (beyond : List Lexeme) (describe : η → String)
    {stop : Token} (hstop : stop.isEnd = true) {items others : List Lexeme}
    (hitems : others.map Lexeme.bare = items.map Lexeme.bare) (notes own : List Note)
    (s s' : Session σ) (hlast : s.reader.ending.isEnd = true) :
    let moved : List (Event η) × Session σ := s.advanceOver (items ++ [⟨notes, .token stop⟩])
    let moved' : List (Event η) × Session σ :=
      s'.advanceOver (others ++ ⟨own, .token gate⟩ :: beyond)
    Event.entries describe moved'.1 = Event.entries describe moved.1 ∧
      ∃ n, Reader.Alike gate beyond moved.2.reader moved'.2.reader n := by
  intro moved moved'
  induction items generalizing others s s' with
  | nil =>
    obtain rfl := List.map_eq_nil_iff.1 hitems
    simp only [moved, moved', List.nil_append, advanceOver, Event.entries_itemEvents]
    exact ⟨trivial, 0, .reached rfl rfl rfl rfl hstop hlast⟩
  | cons l items ih =>
    cases others with
    | nil => cases hitems
    | cons l' others =>
      simp only [List.map_cons, List.cons.injEq] at hitems
      obtain ⟨hbare, hitems⟩ := hitems
      obtain ⟨notes', item⟩ := l
      obtain ⟨own', item'⟩ := l'
      rcases Item.cases_of_unplaced hbare with ⟨v, w, rfl, rfl, hvw⟩ |
        ⟨fault, fault', rfl, rfl, hliteral⟩
      · simp only [moved, moved', List.cons_append, advanceOver, Event.entries_itemEvents]
        exact ⟨trivial, _, .inside rfl rfl hvw rfl rfl hitems hstop hlast⟩
      · have hmessage := Malformed.message_eq hliteral
        obtain ⟨hentries, halike⟩ := ih hitems
          { s with stats := s.stats.report (.reading (.malformed fault)) }
          { s' with stats := s'.stats.report (.reading (.malformed fault')) } hlast
        simp only [moved, moved', List.cons_append, advanceOver, Event.entries_append,
          Event.entries_itemEvents, Event.entries_error, List.nil_append, hentries]
        refine ⟨?_, halike⟩
        exact congrArg (fun text => Entry.error text :: _) hmessage

theorem advance_alike (describe : η → String) (s s' : Session σ) {stop : Token}
    {items others : List Lexeme} {notes own : List Note}
    (ha : s.reader.ahead = items ++ [⟨notes, .token stop⟩])
    (ha' : s'.reader.ahead = others ++ ⟨own, .token gate⟩ :: beyond)
    (hitems : others.map Lexeme.bare = items.map Lexeme.bare) (hstop : stop.isEnd = true)
    (hlast : s.reader.ending.isEnd = true) (hstore : forget s'.store = forget s.store) :
    let moved : List (Event η) × Session σ := s.advance
    let moved' : List (Event η) × Session σ := s'.advance
    Event.entries describe moved'.1 = Event.entries describe moved.1 ∧
      forget moved'.2.store = forget moved.2.store ∧
      ∃ n, Reader.Alike gate beyond moved.2.reader moved'.2.reader n := by
  intro moved moved'
  obtain ⟨hentries, halike⟩ := advanceOver_alike gate beyond describe hstop hitems notes own s s'
    hlast
  rw [← ha, ← ha'] at hentries halike
  refine ⟨hentries, ?_, halike⟩
  rw [advance_store, advance_store, hstore]

theorem recover_alike (s s' : Session σ) (h : Reader.Alike gate beyond s.reader s'.reader n)
    (hstore : forget s'.store = forget s.store) (skip : Bool) (report report' : Report)
    (hmessage : report'.diagnostic.message = report.diagnostic.message) :
    let recovery : List (Event η) × Session σ := s.recover skip report
    let recovery' : List (Event η) × Session σ := s'.recover skip report'
    Turn.Alike gate beyond describe forget ⟨recovery.1, recovery.2, none⟩
      ⟨recovery'.1, recovery'.2, none⟩ := by
  intro recovery recovery'
  have herror : ∀ events : List (Event η), Event.entries describe (.error report' :: events) =
      .error report.diagnostic.message :: Event.entries describe events := by
    intro events
    rw [Event.entries_error, hmessage]
  cases skip with
  | false => exact .on h rfl hstore (herror [])
  | true =>
    let after : List (Event η) × Session σ := advance { s with stats := s.stats.report report }
    let after' : List (Event η) × Session σ := advance { s' with stats := s'.stats.report report' }
    have hevents : recovery.1 = .error report :: .log (.ofSkipped s.reader.token) :: after.1 := rfl
    have hevents' : recovery'.1 =
        .error report' :: .log (.ofSkipped s'.reader.token) :: after'.1 := rfl
    cases h with
    | @inside t u stop items others notes own _ _ _ ha ha' hitems hstop hlast =>
      obtain ⟨hentries, hsame, m, halike⟩ := advance_alike describe
        { s with stats := s.stats.report report } { s' with stats := s'.stats.report report' }
        ha ha' hitems hstop hlast hstore
      refine .on halike rfl hsame ?_
      simp only [hevents, hevents', herror, Event.entries_error, Event.entries_log]
      exact congrArg (List.cons _) hentries
    | @reached t _ hc' ha ha' _ hlast =>
      -- The one session skips its end and stays there, the other skips the gate.
      have hnone : after = ([], { s with
          reader := { s.reader with current := some s.reader.ending, ahead := [] }
          stats := s.stats.report report }) := by
        simp only [after, advance, ha, advanceOver]
      have hgate : AtGate gate beyond { s' with stats := s'.stats.report report' } := ⟨hc', ha'⟩
      refine .past ?_ rfl rfl hgate ?_ rfl ?_
      · change after.2.reader.token.isEnd = true
        rw [hnone]
        exact hlast
      · have hkept : after.2.store = s.store := advance_store _
        exact hstore.trans (congrArg forget hkept).symm
      · simp only [hevents, hevents', herror, Event.entries_error, Event.entries_log, hnone,
          Event.entries_nil]
        rfl

/-! ### Forms -/

theorem conclude_alike (s s' : Session σ) (h : Reader.Alike gate beyond s.reader s'.reader n)
    (hstore : forget s'.store = forget s.store) (skip : Bool) (kind : FormKind)
    {verdict verdict' : Verdict} (hverdict : verdict'.unplaced = verdict.unplaced) :
    Turn.Alike gate beyond describe forget (conclude skip kind s verdict : Turn σ η)
      (conclude skip kind s' verdict') := by
  cases verdict with
  | rejected d =>
    cases verdict' with
    | rejected d' =>
      have hbare : Verdict.rejected { d' with location := none } =
          .rejected { d with location := none } := hverdict
      have hmessage := congrArg Diagnostic.message (Verdict.rejected.inj hbare)
      exact recover_alike s s' h hstore skip (.engine d) (.engine d') hmessage
    | _ => cases hverdict
  | accepted =>
    cases verdict' with
    | accepted => exact .on h rfl hstore rfl
    | _ => cases hverdict
  | value x =>
    cases verdict' with
    | value y =>
      cases hverdict
      exact .on h rfl hstore rfl
    | _ => cases hverdict
  | fault trap =>
    cases verdict' with
    | fault trap' =>
      cases hverdict
      exact .on h rfl hstore rfl
    | _ => cases hverdict

variable {engine : Engine σ η} {ops : OperatorTable} {depth : Nat} {skip : Bool}

theorem accept_alike (hengine : engine.IgnoresPlaces forget) (skip : Bool) (s s' : Session σ)
    (h : Reader.Alike gate beyond s.reader s'.reader n)
    (hstore : forget s'.store = forget s.store) (kind : FormKind) {form form' : Form}
    (hform : form'.unplaced = form.unplaced) :
    Turn.Alike gate beyond engine.describe forget (accept engine skip s kind form)
      (accept engine skip s' kind form') := by
  have hverdict : (engine.verdict kind form' s'.store).1.unplaced =
      (engine.verdict kind form s.store).1.unplaced := by
    rw [← hengine.verdict kind form', ← hengine.verdict kind form, hform, hstore]
  have hafter : forget (engine.verdict kind form' s'.store).2 =
      forget (engine.verdict kind form s.store).2 := by
    rw [← hengine.store kind form', ← hengine.store kind form, hform, hstore]
  have hannounced : Event.entries engine.describe (engine.announcement kind form' s'.store) =
      Event.entries engine.describe (engine.announcement kind form s.store) := by
    rw [← hengine.announced kind form', ← hengine.announced kind form, hform, hstore]
  rw [accept_eq, accept_eq]
  exact (conclude_alike { s with store := (engine.verdict kind form s.store).2 }
    { s' with store := (engine.verdict kind form' s'.store).2 } h hafter skip kind
    hverdict).prepend _ _ hannounced

/-! ### One step -/

theorem handle_alike (hengine : engine.IgnoresPlaces forget) (hgate : gate.Closes)
    (hops : Parse.Closed ops) (h : Reader.Alike gate beyond s.reader s'.reader n)
    (hn : n ≠ 0) (hstore : forget s'.store = forget s.store) (kind : FormKind) :
    Turn.Alike gate beyond engine.describe forget (handle engine ops depth skip s kind)
      (handle engine ops depth skip s' kind) := by
  have hread := Parse.read_agree hgate hops depth kind h fun _ => hn
  have hnothing : ∀ items others : List Lexeme,
      Event.entries engine.describe (others.flatMap itemEvents : List (Event η)) =
        Event.entries engine.describe (items.flatMap itemEvents : List (Event η)) := by
    intro items others
    rw [Event.entries_consumed, Event.entries_consumed]
  cases hr : kind.read ops depth s.reader with
  | error failure after =>
    cases hr' : kind.read ops depth s'.reader with
    | ok form' after' =>
      rw [hr, hr'] at hread
      cases hread
    | error failure' after' =>
      rw [hr, hr'] at hread
      cases hread with
      | error hmessage halike _ =>
        rw [handle_of_error hr, handle_of_error hr']
        exact (recover_alike { s with reader := after } { s' with reader := after' } halike
          hstore true (.reading failure) (.reading failure') hmessage.symm).prepend _ _
          (hnothing _ _)
  | ok form after =>
    cases hr' : kind.read ops depth s'.reader with
    | error failure' after' =>
      rw [hr, hr'] at hread
      cases hread
    | ok form' after' =>
      rw [hr, hr'] at hread
      cases hread with
      | ok hform halike _ =>
        have hform : form'.unplaced = form.unplaced := Eq.symm hform
        rw [handle_of_ok hr, handle_of_ok hr']
        have haccept := (accept_alike hengine skip { s with reader := after }
          { s' with reader := after' } halike hstore kind hform).prepend [.form form] [.form form']
          rfl
        exact haccept.prepend _ _ (hnothing _ _)

theorem step_alike (hengine : engine.IgnoresPlaces forget) (hgate : gate.Closes)
    (hops : Parse.Closed ops) (h : Reader.Alike gate beyond s.reader s'.reader n) (hn : n ≠ 0)
    (hstore : forget s'.store = forget s.store) :
    Turn.Alike gate beyond engine.describe forget (step engine ops depth skip s)
      (step engine ops depth skip s') := by
  have halike := h
  cases h with
  | reached => exact absurd rfl hn
  | @inside t u stop items others notes own hc hc' ht ha ha' hitems hstop hlast =>
    have hkinds := Token.kind_eq_of_unplaced ht
    cases hsymbol : t.isSymbol ";" with
    | true =>
      have hsymbol' : u.isSymbol ";" = true := by
        rw [Token.isSymbol, ← hkinds]
        exact hsymbol
      obtain ⟨hentries, hsame, m, hmoved⟩ := advance_alike engine.describe s s' ha ha' hitems
        hstop hlast hstore
      rw [step_of_separator hc hsymbol, step_of_separator hc' hsymbol']
      exact .on hmoved rfl hsame hentries
    | false =>
      have hsymbol' : u.isSymbol ";" = false := by
        rw [Token.isSymbol, ← hkinds]
        exact hsymbol
      have hkind : FormKind.ofToken u = FormKind.ofToken t := by
        rw [FormKind.ofToken, FormKind.ofToken, hkinds]
      rw [step_of_form hc hsymbol, step_of_form hc' hsymbol', hkind]
      exact handle_alike hengine hgate hops halike hn hstore _

end Session
end
end ScalarLang
