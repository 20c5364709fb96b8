import ScalarLang.Source.Input
import ScalarLang.Token.Scan

/-!
Items of an input that may break off. An item is only known once the character after it is read, so
where an input breaks off, the item that stands last is lost, and with it what was noticed there.
The end of the input takes its place.
-/
namespace ScalarLang

namespace Note

/-- Whether the note concerns text that is followed by more text. -/
def isComplete : Note → Bool
  | comment _ closed => closed
  | shortened _ _ _ => false

end Note

/-- The items up to the one after which the text breaks off, at most `fuel` of them. -/
def brokenLexemesFrom : Nat → Cursor → List Lexeme
  | 0, _ => []
  | fuel + 1, c =>
    let (lexeme, after) := c.next
    if after.text.isEmpty then
      [⟨lexeme.notes.filter Note.isComplete, .token ⟨.eof, "", after.location⟩⟩]
    else lexeme :: brokenLexemesFrom fuel after

namespace Input

def lexemes (input : Input) (file : String) : List Lexeme :=
  if input.broken then
    brokenLexemesFrom (input.text.length + 1) (Cursor.start file input.text)
  else ScalarLang.lexemes file input.text

end Input
end ScalarLang
