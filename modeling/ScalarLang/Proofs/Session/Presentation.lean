import ScalarLang.Interpreter.Engine
import ScalarLang.Proofs.Session.Live
import ScalarLang.Proofs.Session.Replay

/-!
# Presentations do not interfere

What is shown of a session has no influence on what it does. Two live sessions that differ in
prompts and echoes only count the same, leave the same store and end with the same fault. Prompts
stand on the error output between the rounds, and echoes on the standard output above the values;
what is left without them is the same in both.
-/
namespace ScalarLang

variable {σ η : Type}

/-! ### Cues -/

namespace Event

/-- The event is there for the one who types: a prompt, or the line break at the end. -/
def isCue : Event η → Bool
  | prompt => true
  | farewell => true
  | _ => false

/-- There is no cue among the events. -/
def Uncued (events : List (Event η)) : Prop := ∀ event ∈ events, event.isCue = false

theorem Uncued.append {events more : List (Event η)} (h : Uncued events) (h' : Uncued more) :
    Uncued (events ++ more) := List.forall_mem_append.2 ⟨h, h'⟩

theorem Uncued.cons {event : Event η} {events : List (Event η)} (hevent : event.isCue = false)
    (h : Uncued events) : Uncued (event :: events) := List.forall_mem_cons.2 ⟨hevent, h⟩

theorem uncued_nil : Uncued ([] : List (Event η)) := List.forall_mem_nil _

theorem uncued_log (records : List Record) : Uncued (records.map (.log (η := η))) := by
  intro event hevent
  obtain ⟨record, _, rfl⟩ := List.mem_map.1 hevent
  rfl

theorem uncued_itemEvents (l : Lexeme) : Uncued (Session.itemEvents l : List (Event η)) := by
  have hnotes := uncued_log (η := η) (l.notes.map .ofNote)
  rw [List.map_map] at hnotes
  refine hnotes.append ?_
  split
  · exact uncued_nil.cons rfl
  · exact uncued_nil

theorem uncued_consumed (items : List Lexeme) :
    Uncued (items.flatMap Session.itemEvents : List (Event η)) := by
  intro event hevent
  obtain ⟨l, _, hl⟩ := List.mem_flatMap.1 hevent
  exact uncued_itemEvents l event hl

/-- Without cues only the log depends on the presentation of the error output. -/
theorem errText_of_uncued {shown other : Presentation} (hverbose : shown.verbose = other.verbose)
    {events : List (Event η)} (h : Uncued events) :
    errText shown events = errText other events := by
  refine congrArg String.join (List.map_congr_left fun event hevent => ?_)
  have hcue := h event hevent
  cases event with
  | prompt | farewell => cases hcue
  | form | log => simp only [err, hverbose]
  | _ => rfl

theorem errText_append (shown : Presentation) (events more : List (Event η)) :
    errText shown (events ++ more) = errText shown events ++ errText shown more := by
  rw [errText, List.map_append, String.join_append, errText, errText]

theorem errText_of_condition {shown : Presentation} {event : Event η} {text : String}
    (h : event.err shown = text) (condition : Bool) :
    errText shown (if condition then [event] else []) = if condition then text else "" := by
  cases condition with
  | true => simp [errText, h]
  | false => rfl

end Event

namespace Session

variable {s : Session σ} {engine : Engine σ η} {ops : OperatorTable} {depth : Nat} {skip : Bool}

theorem advanceOver_uncued (s : Session σ) (items : List Lexeme) :
    Event.Uncued (s.advanceOver items : List (Event η) × Session σ).1 := by
  induction items generalizing s with
  | nil => exact Event.uncued_nil
  | cons l rest ih =>
    obtain ⟨notes, item⟩ := l
    cases item with
    | token t => exact Event.uncued_itemEvents _
    | malformed fault => exact (Event.uncued_itemEvents _).append ((ih _).cons rfl)

theorem recover_uncued (s : Session σ) (skip : Bool) (report : Report) :
    Event.Uncued (s.recover skip report : List (Event η) × Session σ).1 := by
  cases skip with
  | false => exact Event.uncued_nil.cons rfl
  | true => exact ((advanceOver_uncued _ _).cons rfl).cons rfl

theorem conclude_uncued (s : Session σ) (skip : Bool) (kind : FormKind) (verdict : Verdict) :
    Event.Uncued (conclude skip kind s verdict : Turn σ η).events := by
  cases verdict with
  | accepted => exact Event.uncued_nil
  | value x => exact Event.uncued_nil.cons rfl
  | rejected d => exact recover_uncued s skip _
  | fault trap => exact Event.uncued_nil

theorem announcement_uncued (engine : Engine σ η) (kind : FormKind) (form : Form) (store : σ) :
    Event.Uncued (engine.announcement kind form store) := by
  have hlogged : ∀ texts, Event.Uncued (engine.logged texts) := by
    intro texts event hevent
    obtain ⟨text, _, rfl⟩ := List.mem_map.1 hevent
    rfl
  unfold Engine.announcement
  cases submit engine form store with
  | error rejection after => exact Event.uncued_nil
  | ok lowered after =>
    have hechoed : Event.Uncued (engine.logged lowered.log ++ [.echo kind lowered.handle]) :=
      (hlogged _).append (Event.uncued_nil.cons rfl)
    cases kind with
    | expression => exact hechoed.append (hlogged _)
    | _ => exact hechoed

theorem handle_uncued (engine : Engine σ η) (ops : OperatorTable) (depth : Nat) (skip : Bool)
    (s : Session σ) (kind : FormKind) :
    Event.Uncued (handle engine ops depth skip s kind).events := by
  cases hread : kind.read ops depth s.reader with
  | error failure reader =>
    rw [handle_of_error hread]
    exact (Event.uncued_consumed _).append (recover_uncued _ _ _)
  | ok form reader =>
    rw [handle_of_ok hread]
    simp only [accept_eq]
    exact (Event.uncued_consumed _).append
      (((announcement_uncued _ _ _ _).append (conclude_uncued _ _ _ _)).cons rfl)

/-- No round of a session gives a prompt by itself. -/
theorem step_uncued (engine : Engine σ η) (ops : OperatorTable) (depth : Nat) (skip : Bool)
    (s : Session σ) : Event.Uncued (step engine ops depth skip s).events := by
  rcases step_cases engine ops depth skip s with hstep | ⟨kind, hstep⟩
  · rw [hstep]
    exact advanceOver_uncued s s.reader.ahead
  · rw [hstep]
    exact handle_uncued engine ops depth skip s kind

/-! ### Rounds -/

variable (engine ops depth skip)

/-- The rounds of a session from a state on. A fault makes a round the last one. -/
def roundsFrom : Nat → Session σ → List (Turn σ η)
  | 0, _ => []
  | fuel + 1, s =>
    if s.reader.token.isEnd then []
    else
      let turn := step engine ops depth skip s
      turn :: match turn.fault with
        | some _ => []
        | none => roundsFrom fuel turn.session

/-- What happens before the first round: a session moves to the first token. -/
def opening (store : σ) (items : List Lexeme) : List (Event η) × Session σ :=
  advance { reader := .ofLexemes items, store }

/-- The rounds of a whole session. -/
def rounds (store : σ) (items : List Lexeme) : List (Turn σ η) :=
  roundsFrom engine ops.freeze depth skip (items.length + 1) (opening (η := η) store items).2

end Session

/-- The events of a round, with the prompt after it if it is completed. -/
def Turn.prompted (turn : Turn σ η) : List (Event η) :=
  turn.events ++ if turn.fault.isNone then [.prompt] else []

/-- What a round writes to the error output. -/
def Turn.err (shown : Presentation) (turn : Turn σ η) : String := Event.errText shown turn.events

namespace Session

variable {s : Session σ} {engine : Engine σ η} {ops : OperatorTable} {depth : Nat} {skip : Bool}

theorem roundsFrom_uncued {fuel : Nat} {round : Turn σ η}
    (h : round ∈ roundsFrom engine ops depth skip fuel s) : Event.Uncued round.events := by
  induction fuel generalizing s with
  | zero => cases h
  | succ fuel ih =>
    rw [roundsFrom] at h
    split at h
    · cases h
    · rcases List.mem_cons.1 h with rfl | hlater
      · exact step_uncued engine ops depth skip s
      · split at hlater
        · cases hlater
        · exact ih hlater

/-- A session consists of its rounds, with a prompt after each that is completed. -/
theorem runFrom_rounds (engine : Engine σ η) (ops : OperatorTable) (depth : Nat) (skip : Bool)
    {fuel : Nat} (hr : s.reader.Standing) (hfuel : s.reader.unread.length < fuel) :
    let turn := runFrom engine ops depth skip fuel s
    turn.events = (roundsFrom engine ops depth skip fuel s).flatMap Turn.prompted ++
      if turn.fault.isNone then [.farewell] else [] := by
  induction fuel generalizing s with
  | zero => exact absurd hfuel (Nat.not_lt_zero _)
  | succ fuel ih =>
    rw [roundsFrom]
    cases hend : s.reader.token.isEnd with
    | true =>
      rw [runFrom_of_end hend]
      rfl
    | false =>
      cases hf : (step engine ops depth skip s).fault with
      | some trap => simp [runFrom_of_fault hend hf, Turn.prompted, hf]
      | none =>
        obtain ⟨hstanding, hless⟩ := step_less engine ops depth skip hr hend
        have hrest := ih hstanding (by omega)
        simp only [runFrom_of_step hend hf, Bool.false_eq_true, if_false, List.flatMap_cons,
          Turn.prompted, hf, Option.isNone_none, if_true, List.append_assoc, List.cons_append,
          List.nil_append]
        rw [← hrest]

end Session

/-! ### The error output -/

/-- What the one who types gets to see of a text. -/
def Presentation.cue (shown : Presentation) (text : String) : String :=
  if shown.interactive then text else ""

section Err

variable {shown other : Presentation}

theorem errText_prompted (hverbose : shown.verbose = other.verbose) {rounds : List (Turn σ η)}
    (h : ∀ round ∈ rounds, Event.Uncued round.events) :
    Event.errText shown (rounds.flatMap Turn.prompted) = String.join (rounds.map fun round =>
      round.err other ++ if round.fault.isNone then shown.cue shown.prompt else "") := by
  induction rounds with
  | nil => rfl
  | cons round rest ih =>
    obtain ⟨hround, hrest⟩ := List.forall_mem_cons.1 h
    have hprompt : (Event.prompt (η := η)).err shown = shown.cue shown.prompt := rfl
    rw [List.flatMap_cons, List.map_cons, String.join_cons, Event.errText_append, ih hrest,
      Turn.prompted, Event.errText_append, Event.errText_of_uncued hverbose hround,
      Event.errText_of_condition hprompt]
    rfl

/-- The error output of a session, by its rounds. -/
theorem Session.run_err (hverbose : shown.verbose = other.verbose) (engine : Engine σ η)
    (ops : OperatorTable) (depth : Nat) (skip : Bool) (store : σ) (file : String)
    (source : List Char) :
    let items := lexemes file source
    let turn := run engine ops depth skip store items
    Event.errText shown turn.events =
      shown.cue shown.prompt ++ Event.errText other (opening (η := η) store items).1 ++
      String.join ((rounds engine ops depth skip store items).map fun round =>
        round.err other ++ if round.fault.isNone then shown.cue shown.prompt else "") ++
      if turn.fault.isNone then shown.cue "\n" else "" := by
  intro items turn
  obtain ⟨hstanding, hfuel⟩ := start_standing η store file source
  have hopening : Event.Uncued (opening (η := η) store items).1 := advanceOver_uncued _ _
  have huncued : ∀ round ∈ rounds engine ops depth skip store items, Event.Uncued round.events :=
    fun round hround => roundsFrom_uncued hround
  have hrounds := runFrom_rounds engine ops.freeze depth skip hstanding hfuel
  have hevents : turn.events = [.prompt] ++ ((opening (η := η) store items).1 ++
      ((rounds engine ops depth skip store items).flatMap Turn.prompted ++
        if turn.fault.isNone then [.farewell] else [])) :=
    congrArg (fun events => Event.prompt :: ((opening (η := η) store items).1 ++ events)) hrounds
  have hfarewell : (Event.farewell (η := η)).err shown = shown.cue "\n" := rfl
  rw [hevents, Event.errText_append, Event.errText_append, Event.errText_append,
    errText_prompted hverbose huncued, Event.errText_of_condition hfarewell,
    Event.errText_of_uncued hverbose hopening]
  simp only [String.append_assoc]
  rfl

end Err

/-! ### The standard output -/

/-- A block with or without its echo. -/
def Block.shown (echo : Bool) (block : Block) : String :=
  (if echo then block.kind.heading ++ "\n" ++ block.text ++ "\n" else "") ++
    block.value.elim "" valueLine

theorem Block.join_values (blocks : List Block) :
    String.join ((blocks.filterMap value).map valueLine) =
      String.join (blocks.map (Block.shown false)) := by
  induction blocks with
  | nil => rfl
  | cons block rest ih =>
    obtain ⟨kind, text, value⟩ := block
    rw [List.map_cons, String.join_cons, ← ih]
    cases value with
    | none => simp [Block.shown]
    | some x => simp [Block.shown]

theorem Session.run_out (engine : Engine σ η) (ops : OperatorTable) (depth : Nat) (skip : Bool)
    (store : σ) (file : String) (source : List Char) (shown : Presentation) :
    let turn := run engine ops depth skip store (lexemes file source)
    Event.outText engine.describe shown turn.events = String.join
      ((engine.replay store (Event.forms turn.events)).1.map (Block.shown shown.echo)) := by
  have haccounted := run_accounted engine ops depth skip store file source
  intro turn
  cases hecho : shown.echo with
  | true => exact haccounted.echoed shown hecho
  | false => rw [haccounted.quiet shown hecho, haccounted.values, Block.join_values]

/-- Two live sessions over one source, which differ in the prompt, in whether they are interactive
and in whether they echo: both count the same, leave the same store and end with the same fault, if
any. On the standard output both write the same values, each below the echo of its form where echoes
are shown. On the error output the interactive session writes what the other one writes, with the
prompt before the first token is read and after every round that is completed, and a line break at
the end. -/
theorem presentations_do_not_interfere (engine : Engine σ η) (ops : OperatorTable) (depth : Nat)
    (skip : Bool) (store : σ) (file : String) (source : List Char) (shown other : Presentation)
    (hverbose : shown.verbose = other.verbose) :
    let items := lexemes file source
    let here := Live.run shown engine ops depth skip store items
    let there := Live.run other engine ops depth skip store items
    let rounds := Session.rounds engine ops depth skip store items
    let start := Event.errText other (Session.opening (η := η) store items).1
    let forms := Event.forms (Session.run engine ops depth skip store items).events
    let blocks := (engine.replay store forms).1
    here.session.stats = there.session.stats ∧ here.session.store = there.session.store ∧
    here.fault = there.fault ∧
    (shown.echo = other.echo → here.out = there.out) ∧
    here.out = String.join (blocks.map (Block.shown shown.echo)) ∧
    there.out = String.join (blocks.map (Block.shown other.echo)) ∧
    (shown.prompt = other.prompt → shown.interactive = other.interactive → here.err = there.err) ∧
    (shown.interactive = true → other.interactive = false →
      there.err = start ++ String.join (rounds.map (Turn.err other)) ∧
      here.err = shown.prompt ++ start ++
        String.join (rounds.map fun round =>
          round.err other ++ if round.fault.isNone then shown.prompt else "") ++
        if here.fault.isNone then "\n" else "") := by
  intro items here there rounds start forms blocks
  have hout : ∀ p : Presentation, (Live.run p engine ops depth skip store items).out =
      String.join (blocks.map (Block.shown p.echo)) := by
    intro p
    rw [Live.run_eq]
    exact Session.run_out engine ops depth skip store file source p
  have herr : ∀ p : Presentation, p.verbose = other.verbose →
      (Live.run p engine ops depth skip store items).err = p.cue p.prompt ++ start ++
        String.join (rounds.map fun round =>
          round.err other ++ if round.fault.isNone then p.cue p.prompt else "") ++
        if here.fault.isNone then p.cue "\n" else "" := by
    intro p hp
    simp only [here, Live.run_eq]
    exact Session.run_err hp engine ops depth skip store file source
  refine ⟨?_, ?_, ?_, fun hecho => ?_, hout shown, hout other, fun hprompt hinteractive => ?_,
    fun hshown hother => ⟨?_, ?_⟩⟩
  · simp only [here, there, Live.run_eq]
  · simp only [here, there, Live.run_eq]
  · simp only [here, there, Live.run_eq]
  · rw [hout shown, hout other, hecho]
  · simp only [here, there, herr shown hverbose, herr other rfl, Presentation.cue, hprompt,
      hinteractive]
  · have hquiet : ∀ text, other.cue text = "" := by
      intro text
      simp [Presentation.cue, hother]
    simp only [there, herr other rfl, hquiet, ite_self, String.append_empty, String.empty_append]
  · have hcue : ∀ text, shown.cue text = text := by
      intro text
      simp [Presentation.cue, hshown]
    rw [herr shown hverbose, hcue, hcue]

set_option maxRecDepth 20000 in
theorem unknown_name_rounds :
    let items := lexemes "" "extern f(x); f(y) f".toList
    let engine := Interpreter.engine [] 9
    (Session.rounds engine .standard 9 true {} items).map (fun round =>
        (round.err {}, round.fault.isNone)) =
      [("", true), ("", true), ("Error: unknown variable name 'y' (:1:16)\n", true)] ∧
    (Session.run engine .standard 9 true {} items).fault = none := by
  constructor
  · cbv
  · cbv

/-- Three rounds: a declaration, a semicolon, and an expression that is rejected. -/
theorem presentations_do_not_interfere_unknown_name :
    let items := lexemes "" "extern f(x); f(y) f".toList
    let run shown := Live.run shown (Interpreter.engine [] 9) .standard 9 true {} items
    (run {}).err = "Error: unknown variable name 'y' (:1:16)\n" ∧
    (run { prompt := "? ", interactive := true, echo := false }).err =
      "? ? ? Error: unknown variable name 'y' (:1:16)\n? \n" := by
  intro items run
  let shown : Presentation := { prompt := "? ", interactive := true, echo := false }
  obtain ⟨hrounds, hfault⟩ := unknown_name_rounds
  obtain ⟨_, _, _, _, _, _, _, herr⟩ := presentations_do_not_interfere (Interpreter.engine [] 9)
    .standard 9 true {} "" "extern f(x); f(y) f".toList shown {} rfl
  obtain ⟨hquiet, hcued⟩ := herr rfl rfl
  have hnone : (run shown).fault = none := by
    simp only [run, Live.run_eq]
    exact hfault
  have hmap : ∀ text : String × Bool → String,
      ((Session.rounds (Interpreter.engine [] 9) .standard 9 true {} items).map fun round =>
        text (round.err {}, round.fault.isNone)) = _ :=
    fun text => (List.map_map (g := text)).symm.trans (congrArg _ hrounds)
  refine ⟨hquiet.trans ?_, hcued.trans ?_⟩
  · rw [hmap fun round => round.1]
    rfl
  · rw [hmap fun round => round.1 ++ if round.2 then shown.prompt else "", hnone]
    rfl

end ScalarLang
