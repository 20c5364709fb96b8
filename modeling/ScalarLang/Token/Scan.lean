import ScalarLang.Source.Cursor
import ScalarLang.Token.Basic
import ScalarLang.Decimal.Literal
import ScalarLang.Diagnostic

/-!
Reading tokens. Blanks and comments stand between tokens; a comment runs from `#` to the end of its
line. A name is the longest run of ASCII letters and digits that starts with a letter, a number the
longest run of digits and points, and any other character is a symbol. A number means what its
longest valid beginning means; a run with no valid beginning is malformed, the only fault there is.
-/
namespace ScalarLang

/-- Something that reading noticed and passed over. -/
inductive Note where
  | comment (start : Location) (closed : Bool)
  | shortened (literal : String) (location : Location) (used : String)
deriving DecidableEq, Repr

/-- A run of digits and points that is no number. -/
structure Malformed where
  literal : String
  location : Location
deriving DecidableEq, Repr

inductive Item where
  | token (token : Token)
  | malformed (fault : Malformed)
deriving Repr, Inhabited

/-- An item together with what was noticed on the way to it. -/
structure Lexeme where
  notes : List Note
  item : Item
deriving Repr, Inhabited

namespace Note

def text : Note → String
  | comment start _ => s!"skipped comment at {start.text}"
  | shortened literal location used =>
    s!"numeric literal {Text.quoted literal} at {location.text} read as {Text.quoted used}"

end Note

namespace Malformed

def diagnostic (m : Malformed) : Diagnostic where
  message := s!"invalid numeric literal '{m.literal}'"
  location := m.location
  code := "L003"
  help := "A number needs at least one digit, e.g. '0.5' or '5.'."
  suggestions := ["Add a digit before or after the '.'"]

end Malformed

/-- Passes a gap. In a comment, `start` is where it began. -/
def passGap (file : String) : Option Location → List Char → Place → List Note × List Char × Place
  | none, [], p => ([], [], p)
  | some start, [], p => ([.comment start false], [], p)
  | none, c :: rest, p =>
    if Text.isBlank c then passGap file none rest (p.past c rest)
    else if c = '#' then passGap file (some (p.location file)) rest (p.past c rest)
    else ([], c :: rest, p)
  | some start, c :: rest, p =>
    if endsLine c then
      let (notes, after) := passGap file none rest (p.past c rest)
      (.comment start true :: notes, after)
    else passGap file (some start) rest (p.past c rest)

def isNumeric (c : Char) : Bool := c.isDigit || c == '.'

/-- The longest beginning of a run of digits and points that is a number: digits with or without a
point and more digits after them, or a point and at least one digit. -/
def numberPart? (run : List Char) : Option (List Char) :=
  let whole := run.takeWhile Char.isDigit
  match whole, run.dropWhile Char.isDigit with
  | [], '.' :: rest =>
    match rest.takeWhile Char.isDigit with
    | [] => none
    | places => some ('.' :: places)
  | [], _ => none
  | whole, '.' :: rest => some (whole ++ '.' :: rest.takeWhile Char.isDigit)
  | whole, _ => some whole

def wordKind (word : String) : TokenKind :=
  if word = "def" then .define else if word = "extern" then .external else .identifier word

/-- What a run of digits and points is, with a note if only its beginning counts. -/
def numberItem (run : List Char) (location : Location) : List Note × Item :=
  let lexeme := String.ofList run
  match numberPart? run with
  | none => ([], .malformed ⟨lexeme, location⟩)
  | some part =>
    (if part = run then [] else [.shortened lexeme location (String.ofList part)],
      .token ⟨.number (Decimal.literalValue part), lexeme, location⟩)

namespace Cursor

def passGap (c : Cursor) : List Note × Cursor :=
  let (notes, text, place) := ScalarLang.passGap c.file none c.text c.place
  (notes, { c with text, place })

/-- The item at the pending character, which stands in no gap. -/
def item (c : Cursor) : List Note × Item × Cursor :=
  match c.text with
  | [] => ([], .token ⟨.eof, "", c.location⟩, c)
  | x :: _ =>
    if x.isAlpha then
      let word := c.text.takeWhile Char.isAlphanum
      let lexeme := String.ofList word
      ([], .token ⟨wordKind lexeme, lexeme, c.location⟩, c.skip word.length)
    else if isNumeric x then
      let run := c.text.takeWhile isNumeric
      let (notes, item) := numberItem run c.location
      (notes, item, c.skip run.length)
    else
      let lexeme := String.singleton x
      ([], .token ⟨.symbol lexeme, lexeme, c.location⟩, c.advance)

/-- Reads the next item. At the end of the text it reads the end again and again. -/
def next (c : Cursor) : Lexeme × Cursor :=
  let (skipped, c) := c.passGap
  let (notes, item, c) := c.item
  (⟨skipped ++ notes, item⟩, c)

end Cursor

namespace Item

def isEnd : Item → Bool
  | token t => t.isEnd
  | malformed _ => false

end Item

/-- The next items up to the end of the input, at most `fuel` of them. -/
def lexemesFrom : Nat → Cursor → List Lexeme
  | 0, _ => []
  | fuel + 1, c =>
    let (lexeme, c) := c.next
    if lexeme.item.isEnd then [lexeme] else lexeme :: lexemesFrom fuel c

/-- All items of a source, the last of them its end. Every other item takes a character of the
source, so there is at most one more item than there are characters. -/
def lexemes (file : String) (source : List Char) : List Lexeme :=
  lexemesFrom (source.length + 1) (Cursor.start file source)

/-- The tokens among items, up to the first malformed literal. -/
def tokensOf : List Lexeme → Except Malformed (List Token)
  | [] => .ok []
  | ⟨_, .token t⟩ :: rest => (tokensOf rest).map (t :: ·)
  | ⟨_, .malformed fault⟩ :: _ => .error fault

def tokenize (file : String) (source : List Char) : Except Malformed (List Token) :=
  tokensOf (lexemes file source)

end ScalarLang
