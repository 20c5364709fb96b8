import ScalarLang.Parse.Expression

/-!
Reading forms:

    form       ::= 'def' prototype expression | 'extern' prototype | expression
    prototype  ::= name '(' name* ')'

A source is a row of forms with semicolons anywhere between them.
-/
namespace ScalarLang.Parse

/-- The parameters of a prototype up to the closing parenthesis, after `done`. -/
def parameters : Nat → List String → Parse (List String)
  | 0, done => pure done
  | fuel + 1, done => do
    let t ← fetch
    match t.kind with
    | .identifier name =>
      if name ∈ done then fail (.newParameter name) else parameters fuel (done ++ [name])
    | _ => pure done

def prototype : Parse Prototype := do
  let t ← current
  match t.kind with
  | .identifier name =>
    let _ ← fetch
    require "(" .parameterStart
    let params ← parameters (← rounds) []
    require ")" .parameterEnd
    let _ ← fetch
    pure ⟨name, params, t.location⟩
  | _ => fail .functionName

/-- A definition, from its keyword on. -/
def definition (ops : OperatorTable) (depth : Nat) : Parse Function := do
  let _ ← fetch
  let p ← prototype
  let body ← expression ops depth
  pure ⟨p, body⟩

def external : Parse Prototype := do
  let _ ← fetch
  prototype

/-- A bare expression, as a function without a name. -/
def bareExpression (ops : OperatorTable) (depth : Nat) : Parse Function := do
  let start ← current
  let body ← expression ops depth
  pure ⟨⟨"", [], start.location⟩, body⟩

/-- The token that a form starts with: the current one, or the first if none was read yet. -/
def start : Parse Token := do
  match (← get).current with
  | some t => pure t
  | none => fetch

/-- The form at the current token. At the end of the input there is none, nor at a semicolon, which
is passed. -/
def form? (ops : OperatorTable) (depth : Nat) : Parse (Option Form) := do
  let t ← start
  match t.kind with
  | .eof => pure none
  | .define => some <$> Form.function <$> definition ops depth
  | .external => some <$> Form.external <$> external
  | _ =>
    if t.isSymbol ";" then
      let _ ← fetch
      pure none
    else some <$> Form.function <$> bareExpression ops depth

def passSeparators : Nat → Parse Unit
  | 0 => pure ()
  | fuel + 1 => do
    if (← current).isSymbol ";" then
      let _ ← fetch
      passSeparators fuel

def first (ops : OperatorTable) (depth : Nat) : Parse Form := do
  let _ ← fetch
  passSeparators (← rounds)
  match ← form? ops depth with
  | some form => pure form
  | none => fail .form

/-- The forms up to the end of the input. -/
def formsFrom (ops : OperatorTable) (depth : Nat) : Nat → Parse (List Form)
  | 0 => pure []
  | fuel + 1 => do
    if (← current).isEnd then pure []
    else
      let found ← form? ops depth
      let rest ← formsFrom ops depth fuel
      pure (found.toList ++ rest)

def all (ops : OperatorTable) (depth : Nat) : Parse (List Form) := do
  let _ ← fetch
  formsFrom ops depth (← rounds)

end ScalarLang.Parse

namespace ScalarLang

/-- The result of a step of reading, without the state after it. -/
def Parse.result {α : Type} (step : Parse α) (r : Reader) : Except Failure α :=
  match step r with
  | .ok a _ => .ok a
  | .error failure _ => .error failure

def parseFirst (ops : OperatorTable) (file : String) (source : List Char) : Except Failure Form :=
  (Parse.first ops Parse.depthLimit).result (.ofSource file source)

/-- Reads all forms of a source, up to the first failure. -/
def parseAll (ops : OperatorTable) (file : String) (source : List Char) :
    Except Failure (List Form) :=
  (Parse.all ops Parse.depthLimit).result (.ofSource file source)

end ScalarLang
