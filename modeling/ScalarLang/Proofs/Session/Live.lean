import ScalarLang.Proofs.Session.Loops

/-!
# Sessions that write while they go on

A session keeps its events, and its transcript is read off them when it is over. A live session
keeps none. Wherever something is to be shown it looks at its presentation, and writes at once. It
does what the session does and writes what its transcript says, up to the fault if one cuts it
short.
-/
namespace ScalarLang

variable {σ η : Type}

/-- A session and what it has written so far. -/
structure Live (σ : Type) where
  session : Session σ
  out : String := ""
  err : String := ""
  fault : Option Trap := none

namespace Live

/-! ### What is written, and when -/

section Writing

variable (shown : Presentation)

def print (text : String) (l : Live σ) : Live σ := { l with out := l.out ++ text }

def complain (text : String) (l : Live σ) : Live σ := { l with err := l.err ++ text }

def moveTo (s : Session σ) (l : Live σ) : Live σ := { l with session := s }

def prompt (l : Live σ) : Live σ := if shown.interactive then l.complain shown.prompt else l

def farewell (l : Live σ) : Live σ := if shown.interactive then l.complain "\n" else l

def log (record : Record) (l : Live σ) : Live σ :=
  if shown.verbose then l.complain record.line else l

def logAll (records : List Record) (l : Live σ) : Live σ :=
  records.foldl (fun l record => l.log shown record) l

def echo (describe : η → String) (kind : FormKind) (handle : η) (l : Live σ) : Live σ :=
  if shown.echo then (l.print (kind.heading ++ "\n")).print (describe handle ++ "\n") else l

def report (r : Report) (l : Live σ) : Live σ :=
  (l.moveTo { l.session with stats := l.session.stats.report r }).complain r.diagnostic.line

/-! ### Reading on -/

def pass (items : List Lexeme) (l : Live σ) : Live σ :=
  items.foldl (fun l item => l.logAll shown (item.notes.map .ofNote)) l

def advanceOver : List Lexeme → Live σ → Live σ
  | [], l => l.moveTo { l.session with
      reader := { l.session.reader with current := some l.session.reader.ending, ahead := [] } }
  | item :: rest, l =>
    let l := l.pass shown [item]
    match item.item with
    | .token t => l.moveTo { l.session with
        reader := { l.session.reader with current := some t, ahead := rest } }
    | .malformed fault => advanceOver rest (l.report (.reading (.malformed fault)))

def advance (l : Live σ) : Live σ := l.advanceOver shown l.session.reader.ahead

def recover (skip : Bool) (r : Report) (l : Live σ) : Live σ :=
  let l := l.report r
  if skip then (l.log shown (.ofSkipped l.session.reader.token)).advance shown else l

/-! ### Forms -/

def evaluate (engine : Engine σ η) (skip : Bool) (handle : η) (l : Live σ) : Live σ :=
  match engine.execute handle l.session.store with
  | .ok x store =>
    (l.moveTo { l.session with store, stats := l.session.stats.evaluate x }).print
      ("Evaluated to " ++ Decimal.sixPlaces x ++ "\n")
  | .error trap store =>
    let l := l.moveTo { l.session with store }
    match trap.diagnostic? with
    | some d => l.recover shown skip (.engine d)
    | none => { l with fault := some trap }

def accept (engine : Engine σ η) (skip : Bool) (kind : FormKind) (form : Form) (l : Live σ) :
    Live σ :=
  match Session.submit engine form l.session.store with
  | .error rejection store =>
    (l.moveTo { l.session with store }).recover shown skip (.engine rejection.diagnostic)
  | .ok lowered store =>
    let records (texts : List String) : List Record := texts.map fun text => ⟨engine.logger, text⟩
    let l := l.moveTo { l.session with store, stats := l.session.stats.accept kind }
    let l := (l.logAll shown (records lowered.log)).echo shown engine.describe kind lowered.handle
    match kind with
    | .expression =>
      (l.logAll shown (records (engine.trace store lowered.handle))).evaluate shown engine skip
        lowered.handle
    | _ => l

def handle (engine : Engine σ η) (ops : OperatorTable) (depth : Nat) (skip : Bool)
    (kind : FormKind) (l : Live σ) : Live σ :=
  match kind.read ops depth l.session.reader with
  | .error failure reader =>
    let l := l.pass shown (l.session.reader.consumed reader)
    (l.moveTo { l.session with reader }).recover shown true (.reading failure)
  | .ok form reader =>
    let l := l.pass shown (l.session.reader.consumed reader)
    let l := (l.moveTo { l.session with reader }).log shown (.ofForm form)
    l.accept shown engine skip kind form

/-! ### Whole sessions -/

/-- One round: deals with what stands at the current token. -/
def step (engine : Engine σ η) (ops : OperatorTable) (depth : Nat) (skip : Bool) (l : Live σ) :
    Live σ :=
  match l.session.reader.token.kind with
  | .define => l.handle shown engine ops depth skip .definition
  | .external => l.handle shown engine ops depth skip .external
  | _ =>
    if l.session.reader.token.isSymbol ";" then l.advance shown
    else l.handle shown engine ops depth skip .expression

/-- Goes on to the end of the input, with a prompt after every round. -/
def runFrom (engine : Engine σ η) (ops : OperatorTable) (depth : Nat) (skip : Bool) :
    Nat → Live σ → Live σ
  | 0, l => l
  | fuel + 1, l =>
    if l.session.reader.token.isEnd then l.farewell shown
    else
      let l := l.step shown engine ops depth skip
      match l.fault with
      | some _ => l
      | none => runFrom engine ops depth skip fuel (l.prompt shown)

/-- A whole session over items, with a prompt before the first token is read. -/
def run (engine : Engine σ η) (ops : OperatorTable) (depth : Nat) (skip : Bool) (store : σ)
    (items : List Lexeme) : Live σ :=
  let start : Live σ := { session := { reader := .ofLexemes items, store } }
  ((start.prompt shown).advance shown).runFrom shown engine ops.freeze depth skip
    (items.length + 1)

end Writing

/-! ### What events write -/

/-- A live session after events that have led to a state. -/
def after (describe : η → String) (shown : Presentation) (l : Live σ) (events : List (Event η))
    (s : Session σ) : Live σ :=
  { l with
    session := s
    out := l.out ++ Event.outText describe shown events
    err := l.err ++ Event.errText shown events }

/-- A live session after a part of the session that keeps its events. -/
def follow (describe : η → String) (shown : Presentation) (l : Live σ) (turn : Turn σ η) : Live σ :=
  { l.after describe shown turn.events turn.session with fault := turn.fault }

variable {describe : η → String} {shown : Presentation} {l : Live σ} {s s' : Session σ}
  {events more : List (Event η)} {fault : Option Trap}

@[simp] theorem moveTo_session : (l.moveTo s).session = s := rfl

@[simp] theorem after_session : (l.after describe shown events s).session = s := rfl

@[simp] theorem after_fault : (l.after describe shown events s).fault = l.fault := rfl

@[simp] theorem after_moveTo : (l.moveTo s).after describe shown events s' =
    l.after describe shown events s' := rfl

@[simp] theorem moveTo_after : (l.after describe shown events s).moveTo s' =
    l.after describe shown events s' := rfl

@[simp] theorem after_after :
    (l.after describe shown events s).after describe shown more s' =
      l.after describe shown (events ++ more) s' := by
  simp only [after, Event.outText, Event.errText, List.map_append, String.join_append,
    String.append_assoc]

@[simp] theorem follow_after :
    (l.after describe shown events s).follow describe shown ⟨more, s', fault⟩ =
      l.follow describe shown ⟨events ++ more, s', fault⟩ := by
  simp only [follow, after_after]

theorem after_nil : l.after describe shown ([] : List (Event η)) l.session = l := by
  simp [after, Event.outText, Event.errText]

/-- A part of a session that comes to its end leaves no fault. -/
theorem follow_of_none (hl : l.fault = none) :
    l.follow describe shown ⟨events, s, none⟩ = l.after describe shown events s := by
  rw [follow, after, ← hl]

theorem after_one {event : Event η} :
    l.after describe shown [event] l.session =
      { l with out := l.out ++ event.out describe shown, err := l.err ++ event.err shown } := by
  simp [after, Event.outText, Event.errText]

variable (describe shown l)

/-- What is only written on a condition is written by an event that does so on that condition. -/
theorem complain_eq {condition : Bool} {text : String} {event : Event η}
    (hout : event.out describe shown = "")
    (herr : event.err shown = if condition then text else "") :
    (if condition then l.complain text else l) = l.after describe shown [event] l.session := by
  rw [after_one, hout, herr]
  cases condition with
  | true => simp [complain]
  | false => simp

theorem prompt_eq : l.prompt shown = l.after describe shown [.prompt] l.session :=
  complain_eq describe shown l rfl rfl

theorem farewell_eq : l.farewell shown = l.after describe shown [.farewell] l.session :=
  complain_eq describe shown l rfl rfl

theorem log_eq (record : Record) :
    l.log shown record = l.after describe shown [.log record] l.session :=
  complain_eq describe shown l rfl rfl

/-- A form leaves its entry in the log when it has been read. -/
theorem log_ofForm (form : Form) :
    l.log shown (.ofForm form) = l.after describe shown [.form form] l.session :=
  complain_eq describe shown l rfl rfl

theorem logAll_eq (records : List Record) :
    l.logAll shown records = l.after describe shown (records.map .log) l.session := by
  induction records generalizing l with
  | nil => exact after_nil.symm
  | cons record rest ih =>
    rw [logAll, List.foldl_cons, ← logAll, ih, log_eq describe, after_after]
    rfl

theorem echo_eq (kind : FormKind) (handle : η) :
    l.echo shown describe kind handle = l.after describe shown [.echo kind handle] l.session := by
  rw [after_one, echo]
  cases h : shown.echo with
  | true => simp [Event.out, Event.err, h, print, String.append_assoc]
  | false => simp [Event.out, Event.err, h]

theorem report_eq (r : Report) :
    l.report r = l.after describe shown [.error r]
      { l.session with stats := l.session.stats.report r } := by
  simp [report, after, moveTo, complain, Event.outText, Event.errText, Event.out, Event.err]

theorem passItem_eq (x : Lexeme) :
    l.logAll shown (x.notes.map .ofNote) =
      l.after describe shown (Session.itemEvents x) l.session := by
  have hend : Event.outText describe shown (if x.item.isEnd then [.endOfInput] else []) = "" ∧
      Event.errText shown (if x.item.isEnd then [Event.endOfInput (η := η)] else []) = "" := by
    split
    · exact ⟨rfl, rfl⟩
    · exact ⟨rfl, rfl⟩
  rw [Session.itemEvents, ← after_after (s := l.session), logAll_eq describe, List.map_map]
  simp only [after, hend, String.append_empty]
  rfl

theorem pass_eq (items : List Lexeme) :
    l.pass shown items =
      l.after describe shown (items.flatMap Session.itemEvents) l.session := by
  induction items generalizing l with
  | nil => exact after_nil.symm
  | cons x rest ih =>
    rw [pass, List.foldl_cons, ← pass, ih, passItem_eq describe, List.flatMap_cons, after_after]
    rfl

/-! ### Live sessions and the events of a session -/

theorem advanceOver_eq (items : List Lexeme) :
    let moved : List (Event η) × Session σ := l.session.advanceOver items
    l.advanceOver shown items = l.after describe shown moved.1 moved.2 := by
  induction items generalizing l with
  | nil => simp [advanceOver, Session.advanceOver, after, moveTo, Event.outText, Event.errText]
  | cons x rest ih =>
    obtain ⟨notes, item⟩ := x
    cases item with
    | token t =>
      simp only [advanceOver, pass_eq describe, List.flatMap_singleton]
      rfl
    | malformed fault =>
      simp only [advanceOver, ih, Session.advanceOver]
      rw [report_eq describe shown, pass_eq describe, List.flatMap_singleton]
      simp only [after_after, after_session, List.append_assoc, List.singleton_append]

theorem advance_eq :
    let moved : List (Event η) × Session σ := l.session.advance
    l.advance shown = l.after describe shown moved.1 moved.2 :=
  advanceOver_eq describe shown l l.session.reader.ahead

theorem recover_eq (skip : Bool) (r : Report) :
    let recovery : List (Event η) × Session σ := l.session.recover skip r
    l.recover shown skip r = l.after describe shown recovery.1 recovery.2 := by
  cases skip with
  | false => exact report_eq describe shown l r
  | true =>
    simp only [recover, if_true, Session.recover]
    rw [report_eq describe shown, log_eq describe, advance_eq describe]
    simp only [after_after, after_session, List.cons_append, List.nil_append]

variable (engine : Engine σ η) (ops : OperatorTable) (depth : Nat) (skip : Bool) {l}

theorem evaluate_eq (handle : η) (hl : l.fault = none) :
    l.evaluate shown engine skip handle =
      l.follow engine.describe shown (Session.evaluate engine skip l.session handle) := by
  unfold evaluate Session.evaluate
  cases engine.execute handle l.session.store with
  | ok x store =>
    rw [follow_of_none hl]
    simp [after, moveTo, print, Event.outText, Event.errText, Event.out, Event.err]
  | error trap store =>
    dsimp only
    cases trap.diagnostic? with
    | none => simp [follow, after, moveTo, Event.outText, Event.errText]
    | some d =>
      dsimp only
      rw [follow_of_none hl, recover_eq engine.describe, after_moveTo, moveTo_session]

theorem announce_eq (texts : List String) (kind : FormKind) (handle : η) (s : Session σ) :
    ((l.moveTo s).logAll shown (texts.map fun text => ⟨engine.logger, text⟩)).echo shown
        engine.describe kind handle =
      l.after engine.describe shown
        ((texts.map fun text => .log ⟨engine.logger, text⟩) ++ [.echo kind handle]) s := by
  rw [echo_eq, logAll_eq engine.describe, after_moveTo, after_after, List.map_map]
  rfl

theorem accept_eq (kind : FormKind) (form : Form) (hl : l.fault = none) :
    l.accept shown engine skip kind form =
      l.follow engine.describe shown (Session.accept engine skip l.session kind form) := by
  unfold accept Session.accept
  cases Session.submit engine form l.session.store with
  | error rejection store =>
    dsimp only
    rw [follow_of_none hl, recover_eq engine.describe, after_moveTo, moveTo_session]
  | ok lowered store =>
    dsimp only
    rw [announce_eq]
    cases kind with
    | definition => exact (follow_of_none hl).symm
    | external => exact (follow_of_none hl).symm
    | expression =>
      dsimp only
      rw [logAll_eq engine.describe, after_after, evaluate_eq shown engine skip, List.map_map]
      · exact follow_after
      · exact hl

theorem handle_eq (kind : FormKind) (hl : l.fault = none) :
    l.handle shown engine ops depth skip kind =
      l.follow engine.describe shown (Session.handle engine ops depth skip l.session kind) := by
  unfold handle
  cases hread : kind.read ops depth l.session.reader with
  | error failure reader =>
    simp only [Session.handle_of_error hread]
    rw [follow_of_none hl, pass_eq engine.describe, recover_eq engine.describe]
    simp only [after_after, moveTo_after, after_session]
  | ok form reader =>
    simp only [Session.handle_of_ok hread]
    rw [pass_eq engine.describe, moveTo_after, log_ofForm engine.describe, after_after,
      accept_eq shown engine skip kind form]
    · refine follow_after.trans ?_
      rw [List.append_assoc]
      rfl
    · exact hl

theorem step_eq (hl : l.fault = none) :
    l.step shown engine ops depth skip =
      l.follow engine.describe shown (Session.step engine ops depth skip l.session) := by
  unfold step Session.step
  cases l.session.reader.token.kind with
  | define => exact handle_eq shown engine ops depth skip .definition hl
  | external => exact handle_eq shown engine ops depth skip .external hl
  | _ =>
    dsimp only
    split
    · rw [follow_of_none hl]
      exact advance_eq engine.describe shown l
    · exact handle_eq shown engine ops depth skip .expression hl

/-- The induction is on the rounds, none of which starts after a fault. -/
theorem runFrom_eq (fuel : Nat) (hl : l.fault = none) :
    l.runFrom shown engine ops depth skip fuel =
      l.follow engine.describe shown (Session.runFrom engine ops depth skip fuel l.session) := by
  induction fuel generalizing l with
  | zero =>
    rw [Session.runFrom, follow_of_none hl]
    exact after_nil.symm
  | succ fuel ih =>
    rw [runFrom]
    cases hend : l.session.reader.token.isEnd with
    | true =>
      rw [Session.runFrom_of_end hend, follow_of_none hl]
      exact farewell_eq engine.describe shown l
    | false =>
      simp only [Bool.false_eq_true, if_false, step_eq shown engine ops depth skip hl]
      cases hf : (Session.step engine ops depth skip l.session).fault with
      | some trap =>
        rw [Session.runFrom_of_fault hend hf]
        simp only [follow, hf]
      | none =>
        have hfollow :
            l.follow engine.describe shown (Session.step engine ops depth skip l.session) =
              l.after engine.describe shown (Session.step engine ops depth skip l.session).events
                (Session.step engine ops depth skip l.session).session := by
          rw [← follow_of_none hl, ← hf]
        rw [Session.runFrom_of_step hend hf, hfollow, after_fault, hl]
        dsimp only
        rw [prompt_eq engine.describe, after_after, ih]
        · refine follow_after.trans ?_
          rw [List.append_assoc]
          rfl
        · exact hl

/-- A live session ends in the state and with the fault of the session, and it has written the
transcript of its events. -/
theorem run_eq (store : σ) (items : List Lexeme) :
    let turn := Session.run engine ops depth skip store items
    run shown engine ops depth skip store items =
      ⟨turn.session, Event.outText engine.describe shown turn.events,
        Event.errText shown turn.events, turn.fault⟩ := by
  intro turn
  let start : Live σ := { session := { reader := .ofLexemes items, store } }
  have hfollow : run shown engine ops depth skip store items =
      start.follow engine.describe shown turn := by
    simp only [run, turn, Session.run_eq]
    rw [prompt_eq engine.describe, advance_eq engine.describe, after_after,
      runFrom_eq shown engine _ depth skip _ rfl]
    exact follow_after
  rw [hfollow]
  simp [follow, after, start]

end Live
end ScalarLang
