import ScalarLang.Session.Event

/-!
Sessions. A session reads one form after the other, hands it to an engine and records what happens.
A form that fails is reported and dropped, one token is skipped, and reading goes on. A session ends
at the end of the input, or with a fault that the engine does not report.
-/
namespace ScalarLang

structure Stats where
  definitions : Nat := 0
  externals : Nat := 0
  evaluations : Nat := 0
  errors : Nat := 0
  values : List Float := []
  messages : List String := []
deriving Repr

namespace Stats

/-- Counts an accepted form; an expression counts when it has a value. -/
def accept (s : Stats) : FormKind → Stats
  | .definition => { s with definitions := s.definitions + 1 }
  | .external => { s with externals := s.externals + 1 }
  | .expression => s

def evaluate (s : Stats) (x : Float) : Stats :=
  { s with evaluations := s.evaluations + 1, values := s.values ++ [x] }

def report (s : Stats) (report : Report) : Stats :=
  { s with errors := s.errors + 1, messages := s.messages ++ [report.diagnostic.message] }

end Stats

structure Session (σ : Type) where
  reader : Reader
  store : σ
  stats : Stats := {}

/-- Part of a session: what happened, the state after it, and the fault that ended it if there was
one. -/
structure Turn (σ η : Type) where
  events : List (Event η)
  session : Session σ
  fault : Option Trap := none

namespace Session

variable {σ η : Type}

def itemEvents (l : Lexeme) : List (Event η) :=
  l.notes.map (fun note => .log (.ofNote note)) ++ if l.item.isEnd then [.endOfInput] else []

/-- Moves to the next token among `items`, and reports the malformed literals before it. -/
def advanceOver (s : Session σ) : List Lexeme → List (Event η) × Session σ
  | [] => ([], { s with reader := { s.reader with current := some s.reader.ending, ahead := [] } })
  | l :: rest =>
    match l.item with
    | .token t =>
      (itemEvents l, { s with reader := { s.reader with current := some t, ahead := rest } })
    | .malformed fault =>
      let report := Report.reading (.malformed fault)
      let (events, s) := advanceOver { s with stats := s.stats.report report } rest
      (itemEvents l ++ .error report :: events, s)

def advance (s : Session σ) : List (Event η) × Session σ := s.advanceOver s.reader.ahead

def read {α : Type} (s : Session σ) (step : Parse α) :
    List (Event η) × Except Failure α × Session σ :=
  match step s.reader with
  | .ok a reader => ((s.reader.consumed reader).flatMap itemEvents, .ok a, { s with reader })
  | .error e reader => ((s.reader.consumed reader).flatMap itemEvents, .error e, { s with reader })

/-- Reports an error, and skips one token if asked to. -/
def recover (s : Session σ) (skip : Bool) (report : Report) : List (Event η) × Session σ :=
  let s := { s with stats := s.stats.report report }
  if skip then
    let (events, after) := s.advance
    (.error report :: .log (.ofSkipped s.reader.token) :: events, after)
  else ([.error report], s)

def submit (engine : Engine σ η) : Form → EStateM Rejection σ (Lowered η)
  | .function f => engine.define f
  | .external p => engine.declare p

/-- Runs a lowered expression. `skip` says whether a token is skipped after a failure. -/
def evaluate (engine : Engine σ η) (skip : Bool) (s : Session σ) (handle : η) : Turn σ η :=
  match engine.execute handle s.store with
  | .ok x store => ⟨[.value x], { s with store, stats := s.stats.evaluate x }, none⟩
  | .error trap store =>
    let s := { s with store }
    match trap.diagnostic? with
    | some d =>
      let (events, s) := s.recover skip (.engine d)
      ⟨events, s, none⟩
    | none => ⟨[], s, some trap⟩

/-- Hands a form to an engine, and evaluates it if it is a bare expression. -/
def accept (engine : Engine σ η) (skip : Bool) (s : Session σ) (kind : FormKind) (form : Form) :
    Turn σ η :=
  match submit engine form s.store with
  | .error rejection store =>
    let (events, s) := { s with store }.recover skip (.engine rejection.diagnostic)
    ⟨events, s, none⟩
  | .ok lowered store =>
    let s := { s with store, stats := s.stats.accept kind }
    let logged (texts : List String) : List (Event η) :=
      texts.map fun text => .log ⟨engine.logger, text⟩
    let events := logged lowered.log ++ [.echo kind lowered.handle]
    match kind with
    | .expression =>
      let turn := evaluate engine skip s lowered.handle
      { turn with events := events ++ logged (engine.trace s.store lowered.handle) ++ turn.events }
    | _ => ⟨events, s, none⟩

def handle (engine : Engine σ η) (ops : OperatorTable) (depth : Nat) (skip : Bool)
    (s : Session σ) (kind : FormKind) : Turn σ η :=
  match s.read (kind.read ops depth) with
  | (events, .error failure, s) =>
    let (more, s) := s.recover true (.reading failure)
    ⟨events ++ more, s, none⟩
  | (events, .ok form, s) =>
    let turn := s.accept engine skip kind form
    { turn with events := events ++ .form form :: turn.events }

/-- Deals with what stands at the current token: a semicolon is passed, a keyword starts its form,
and anything else a bare expression. -/
def step (engine : Engine σ η) (ops : OperatorTable) (depth : Nat) (skip : Bool) (s : Session σ) :
    Turn σ η :=
  match s.reader.token.kind with
  | .define => s.handle engine ops depth skip .definition
  | .external => s.handle engine ops depth skip .external
  | _ =>
    if s.reader.token.isSymbol ";" then
      let (events, s) := s.advance
      ⟨events, s, none⟩
    else s.handle engine ops depth skip .expression

/-- Goes on to the end of the input. A prompt follows every step. -/
def runFrom (engine : Engine σ η) (ops : OperatorTable) (depth : Nat) (skip : Bool) :
    Nat → Session σ → Turn σ η
  | 0, s => ⟨[], s, none⟩
  | fuel + 1, s =>
    if s.reader.token.isEnd then ⟨[.farewell], s, none⟩
    else
      let turn := s.step engine ops depth skip
      match turn.fault with
      | some _ => turn
      | none =>
        let rest := runFrom engine ops depth skip fuel turn.session
        { rest with events := turn.events ++ .prompt :: rest.events }

/-- A whole session over items. Every step reads at least one of them. -/
def run (engine : Engine σ η) (ops : OperatorTable) (depth : Nat) (skip : Bool) (store : σ)
    (items : List Lexeme) : Turn σ η :=
  let start : Session σ := { reader := .ofLexemes items, store }
  let (events, s) := start.advance
  let turn := runFrom engine ops.freeze depth skip (items.length + 1) s
  { turn with events := .prompt :: events ++ turn.events }

end Session
end ScalarLang
