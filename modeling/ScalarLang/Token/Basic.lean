import ScalarLang.Source.Location
import ScalarLang.Decimal.Written

/-!
Tokens: the end of the input, the two keywords, names, numbers, and every other character as a
symbol of its own.
-/
namespace ScalarLang

/-- What a token means: a number, a text, or nothing beyond its kind. -/
inductive Meaning where
  | nothing
  | number (value : Float)
  | text (own : String)
deriving Repr, Inhabited

def Meaning.inspect : Meaning → String
  | nothing => "None"
  | number value => Decimal.full value
  | text own => Text.quoted own

inductive TokenKind where
  | eof
  | define
  | external
  | identifier (name : String)
  | number (value : Float)
  | symbol (text : String)
deriving Repr, Inhabited

/-- A token: its kind, the text that it was read from, and where that text starts. A token that is
made up need not have a place. -/
structure Token where
  kind : TokenKind
  lexeme : String
  location : Option Location
deriving Repr, Inhabited

namespace TokenKind

def name : TokenKind → String
  | eof => "EOF"
  | define => "DEF"
  | external => "EXTERN"
  | identifier _ => "IDENTIFIER"
  | number _ => "NUMBER"
  | symbol _ => "CHAR"

def meaning : TokenKind → Meaning
  | identifier name => .text name
  | symbol text => .text text
  | number value => .number value
  | _ => .nothing

end TokenKind

namespace Token

def isEnd (t : Token) : Bool :=
  match t.kind with
  | .eof => true
  | _ => false

def isSymbol (t : Token) (text : String) : Bool :=
  match t.kind with
  | .symbol own => own == text
  | _ => false

def word (t : Token) : String :=
  match t.kind.meaning with
  | .text text => text
  | _ => t.lexeme

def label (t : Token) : String :=
  match t.kind with
  | .eof => "EOF"
  | .number value => s!"NUMBER({Text.quoted t.lexeme} -> {Decimal.full value})"
  | kind => s!"{kind.name}({Text.quoted t.lexeme})"

def inspect (t : Token) : String :=
  let place := match t.location with
    | some location => location.inspect
    | none => "None"
  s!"Token({t.kind.name}, {Text.quoted t.lexeme}, {t.kind.meaning.inspect}, {place})"

def describe (t : Token) : String :=
  match t.kind with
  | .eof => "end of input"
  | .symbol _ => s!"'{t.lexeme}'"
  | .identifier _ => s!"identifier '{t.lexeme}'"
  | .number _ => s!"number '{t.lexeme}'"
  | _ => s!"keyword '{t.lexeme}'"

end Token
end ScalarLang
