import ScalarLang.Command.Whole
import ScalarLang.Engine.Choice

/-!
The arguments of the command. Switches can be shortened, clustered and given their value in the same
argument, where the value `--` clears a switch; as an argument, `--` ends the switches. Arguments
are first told apart and then dealt with from left to right, and the first that fails ends the work;
arguments that mean nothing are reported when all others are done.
-/
namespace ScalarLang.Command

inductive Switch where
  | help
  | backend
  | optLevel
  | quiet
  | prompt
  | keepToken
  | verbose
deriving DecidableEq, Repr

namespace Switch

def all : List Switch := [help, backend, optLevel, quiet, prompt, keepToken, verbose]

def spellings : Switch → List String
  | help => ["-h", "--help"]
  | backend => ["-b", "--backend"]
  | optLevel => ["-O", "--opt-level"]
  | quiet => ["-q", "--quiet", "--no-echo"]
  | prompt => ["--prompt"]
  | keepToken => ["--keep-token-on-backend-error"]
  | verbose => ["-v", "--verbose"]

/-- The switch as messages name it. -/
def title (s : Switch) : String := "/".intercalate s.spellings

def takesValue : Switch → Bool
  | backend => true
  | optLevel => true
  | prompt => true
  | _ => false

def table : List (String × Switch) :=
  all.flatMap fun s => s.spellings.map fun spelling => (spelling, s)

def ofSpelling? (text : String) : Option Switch := table.lookup text

/-- The switch of a letter after a single dash. -/
def ofLetter? (c : Char) : Option Switch := ofSpelling? (String.ofList ['-', c])

end Switch

/-- An argument by its form. A short switch stands after a single dash. -/
inductive Argument where
  | word (text : String)
  | separator
  | switch (switch : Switch) (short : Bool) (value : Option String)
  | unknown (text : String)
deriving DecidableEq, Repr

/-- Why the arguments are not used: help is asked for, or they are wrong. -/
inductive Stop where
  | help
  | usage (message : String)
deriving DecidableEq, Repr

/-- The value of a switch: the usual one, one that is given, or none at all after it is cleared. -/
inductive Value (α : Type) where
  | usual
  | given (value : α)
  | cleared
deriving DecidableEq, Repr

namespace Value

variable {α : Type}

/-- The value, where `usual` is the usual one. -/
def get? (usual : α) : Value α → Option α
  | .usual => some usual
  | given value => some value
  | cleared => none

end Value

structure Options where
  file : Option String := none
  engine : Value EngineChoice := .usual
  optLevel : Value Nat := .usual
  echo : Bool := true
  prompt : Value String := .usual
  keepToken : Bool := false
  verbose : Bool := false
deriving DecidableEq, Repr

/-- Whether a text looks like a negative number: digits, or a point with digits after it. One line
feed may follow. -/
def looksNegative (text : List Char) : Bool :=
  match text with
  | '-' :: rest =>
    let rest := if rest.getLast? == some '\n' then rest.dropLast else rest
    match rest.dropWhile Text.isDecimalDigit with
    | [] => !rest.isEmpty
    | '.' :: places => !places.isEmpty && places.all Text.isDecimalDigit
    | _ => false
  | _ => false

/-- A text up to the first equality sign, and what comes after it if there is one. -/
def splitValue (text : List Char) : List Char × Option (List Char) :=
  match text.dropWhile (· != '=') with
  | [] => (text, none)
  | _ :: value => (text.takeWhile (· != '='), some value)

/-- The spellings that a text can stand for, each with a value if there is one: the beginning of a
long spelling, or a letter with the rest of the argument as its value. -/
def candidates (text : List Char) : List (String × Switch × Bool × Option String) :=
  match text with
  | '-' :: '-' :: _ =>
    let (start, value) := splitValue text
    (Switch.table.filter fun entry => start.isPrefixOf entry.1.toList).map fun (spelling, s) =>
      (spelling, s, false, value.map String.ofList)
  | '-' :: c :: value =>
    match Switch.ofLetter? c with
    | some s => [(String.ofList ['-', c], s, true, some (String.ofList value))]
    | none => []
  | _ => []

/-- Whether a spelling stands after a single dash. -/
def isShort (spelling : List Char) : Bool :=
  match spelling with
  | _ :: '-' :: _ => false
  | _ => true

/-- What an argument that is no full spelling stands for. -/
def classifyOther (text : String) : Except Stop Argument :=
  match candidates text.toList with
  | [(_, s, short, value)] => .ok (.switch s short value)
  | [] =>
    if looksNegative text.toList || text.toList.contains ' ' then .ok (.word text)
    else .ok (.unknown text)
  | several =>
    .error (.usage (s!"ambiguous option: {text} could match " ++
      ", ".intercalate (several.map (·.1))))

def classify (text : String) : Except Stop Argument :=
  match text.toList with
  | '-' :: _ :: _ =>
    match Switch.ofSpelling? text with
    | some s => .ok (.switch s (isShort text.toList) none)
    | none =>
      let (spelling, value) := splitValue text.toList
      match value, Switch.ofSpelling? (String.ofList spelling) with
      | some value, some s => .ok (.switch s (isShort spelling) (some (String.ofList value)))
      | _, _ => classifyOther text
  | _ => .ok (.word text)

/-- Tells arguments apart; after `--` all are words. -/
def classifyAll : List String → Except Stop (List Argument)
  | [] => .ok []
  | text :: rest =>
    if text = "--" then .ok (.separator :: rest.map .word)
    else do
      let argument ← classify text
      let others ← classifyAll rest
      return argument :: others

def complaint (s : Switch) (message : String) : Stop := .usage s!"argument {s.title}: {message}"

/-- The switches in one argument: those before the last, the last, and its value. A short switch
without a value is followed by the letters of others. -/
def expand (s : Switch) (short : Bool) :
    List Char → Except Stop (List Switch × Switch × Option String)
  | [] =>
    if s.takesValue then .ok ([], s, some "")
    else .error (complaint s "ignored explicit argument ''")
  | c :: rest =>
    if s.takesValue then .ok ([], s, some (String.ofList (c :: rest)))
    else
      match short, Switch.ofLetter? c with
      | true, some next =>
        if rest.isEmpty then .ok ([s], next, none)
        else do
          let (before, last, value) ← expand next true rest
          return (s :: before, last, value)
      | _, _ =>
        .error (complaint s s!"ignored explicit argument {Text.quoted (String.ofList (c :: rest))}")

/-- The state of dealing with arguments: the options so far, whether the file has been settled, and
the arguments that mean nothing. -/
structure Progress where
  options : Options := {}
  settled : Bool := false
  extras : List String := []

namespace Progress

/-- Keeps an argument that means nothing. -/
def extra (p : Progress) (text : String) : Progress := { p with extras := p.extras ++ [text] }

def settle (p : Progress) (file : Option String) : Progress :=
  { p with options := { p.options with file }, settled := true }

def set (p : Progress) : Switch → Except Stop Progress
  | .help => .error .help
  | .quiet => .ok { p with options := { p.options with echo := false } }
  | .keepToken => .ok { p with options := { p.options with keepToken := true } }
  | .verbose => .ok { p with options := { p.options with verbose := true } }
  | _ => .ok p

def clear (p : Progress) : Switch → Progress
  | .backend => { p with options := { p.options with engine := .cleared } }
  | .optLevel => { p with options := { p.options with optLevel := .cleared } }
  | .prompt => { p with options := { p.options with prompt := .cleared } }
  | _ => p

def give (p : Progress) (value : String) : Switch → Except Stop Progress
  | .backend =>
    match EngineChoice.ofName? value with
    | some engine => .ok { p with options := { p.options with engine := .given engine } }
    | none =>
      let choices := ", ".intercalate (EngineChoice.all.map fun e => Text.quoted e.name)
      .error (complaint .backend
        s!"invalid choice: {Text.quoted value} (choose from {choices})")
  | .optLevel =>
    match whole? value with
    | none => .error (complaint .optLevel s!"invalid int value: {Text.quoted value}")
    | some level =>
      if 0 ≤ level ∧ level ≤ 3 then
        .ok { p with options := { p.options with optLevel := .given level.toNat } }
      else .error (complaint .optLevel s!"invalid choice: {level} (choose from 0, 1, 2, 3)")
  | .prompt => .ok { p with options := { p.options with prompt := .given value } }
  | s => p.set s

/-- Sets a switch to what stands for its value. -/
def setTo (p : Progress) (value : String) (s : Switch) : Except Stop Progress :=
  if value = "--" then .ok (p.clear s) else p.give value s

/-- Sets the switches of one argument; `value` is that of the last. -/
def apply (p : Progress) (before : List Switch) (last : Switch) (value : Option String) :
    Except Stop Progress := do
  let p ← before.foldlM (fun p s => p.set s) p
  match value with
  | some value => p.setTo value last
  | none => p.set last

end Progress

/-- The switches of an argument, from what was given in it. -/
def switches (s : Switch) (short : Bool) :
    Option String → Except Stop (List Switch × Switch × Option String)
  | some value => expand s short value.toList
  | none => .ok ([], s, none)

/-- Deals with arguments. The first word is the file, together with a separator next to it; a switch
that lacks its value takes it from the next word. -/
def consume (p : Progress) : List Argument → Except Stop Progress
  | [] => .ok p
  | .unknown text :: rest => consume (p.extra text) rest
  | .separator :: rest =>
    if p.settled then consume (p.extra "--") rest
    else
      match rest with
      | .word text :: rest => consume (p.settle (some text)) rest
      | rest => consume (p.settle none) rest
  | .word text :: rest =>
    if p.settled then consume (p.extra text) rest
    else
      match rest with
      | .separator :: rest => consume (p.settle (some text)) rest
      | rest => consume (p.settle (some text)) rest
  | .switch s short value :: rest => do
    let (before, last, value) ← switches s short value
    if last.takesValue && value.isNone then
      match rest with
      | .word text :: rest => consume (← p.apply before last (some text)) rest
      | _ => .error (complaint last "expected one argument")
    else consume (← p.apply before last value) rest

def parse (args : List String) : Except Stop Options := do
  let p ← consume {} (← classifyAll args)
  if p.extras.isEmpty then return p.options
  else throw (.usage ("unrecognized arguments: " ++ " ".intercalate p.extras))

end ScalarLang.Command
