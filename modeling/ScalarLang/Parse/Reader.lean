import ScalarLang.Parse.Failure

/-!
The state of reading forms: one current token and the items ahead of it. Before anything is read
there is no current token. Taking a malformed literal uses it up and leaves the current token as it
was.
-/
namespace ScalarLang

/-- A reader: the current token, the items not yet read, and the token to go on with when there are
no more. -/
structure Reader where
  current : Option Token
  ahead : List Lexeme
  ending : Token
deriving Repr, Inhabited

namespace Reader

/-- A reader in front of items. It goes on with the last of them. -/
def ofLexemes (items : List Lexeme) : Reader :=
  let ending := match items.getLast? with
    | some ⟨_, .token t⟩ => t
    | _ => ⟨.eof, "", none⟩
  ⟨none, items, ending⟩

def ofSource (file : String) (source : List Char) : Reader := ofLexemes (lexemes file source)

/-- The token that a reader stands on; before it has read any, the one that it ends with. -/
def token (r : Reader) : Token := r.current.getD r.ending

/-- The items that lie between a reader and a later state of it. -/
def consumed (r later : Reader) : List Lexeme := r.ahead.take (r.ahead.length - later.ahead.length)

end Reader

/-- A step of reading. What was read stays read when the step fails. -/
abbrev Parse := EStateM Failure Reader

namespace Parse

def known (sought : Aspect) : Option Token → Parse Token
  | some t => pure t
  | none => throw (.noToken sought)

def current : Parse Token := do known .kind (← get).current

/-- Moves to the next token and returns it. -/
def fetch : Parse Token := do
  let r ← get
  match r.ahead with
  | [] =>
    set { r with current := some r.ending }
    pure r.ending
  | ⟨_, .token t⟩ :: rest =>
    set { r with current := some t, ahead := rest }
    pure t
  | ⟨_, .malformed fault⟩ :: rest =>
    set { r with ahead := rest }
    throw (.malformed fault)

theorem fetch_nil {r : Reader} (h : r.ahead = []) :
    fetch r = .ok r.ending { r with current := some r.ending } := by
  obtain ⟨current, ahead, ending⟩ := r
  change ahead = _ at h
  subst h
  rfl

theorem fetch_token {r : Reader} {notes : List Note} {t : Token} {rest : List Lexeme}
    (h : r.ahead = ⟨notes, .token t⟩ :: rest) :
    fetch r = .ok t { r with current := some t, ahead := rest } := by
  obtain ⟨current, ahead, ending⟩ := r
  change ahead = _ at h
  subst h
  rfl

theorem fetch_malformed {r : Reader} {notes : List Note} {fault : Malformed} {rest : List Lexeme}
    (h : r.ahead = ⟨notes, .malformed fault⟩ :: rest) :
    fetch r = .error (.malformed fault) { r with ahead := rest } := by
  obtain ⟨current, ahead, ending⟩ := r
  change ahead = _ at h
  subst h
  rfl

def fail {α : Type} (expected : Expectation) : Parse α := do
  throw (.unexpected expected (← current))

def require (text : String) (expected : Expectation) : Parse Unit := do
  unless (← current).isSymbol text do fail expected

/-- More rounds than a loop can take that reads an item in each. -/
def rounds : Parse Nat := do return (← get).ahead.length + 1

end Parse
end ScalarLang
