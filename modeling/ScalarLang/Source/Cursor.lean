import ScalarLang.Source.Location
import ScalarLang.Text.Blank

/-!
A cursor over a source text. It keeps one pending character, the first of the text that is left,
and counts lines, columns and characters up to that one. Before anything is read the pending
character is a blank in front of the source, which the counters do not count.
-/
namespace ScalarLang

/-- The counters of a cursor: the line and the column of the pending character, and how many
characters of the source have been loaded. -/
structure Place where
  line : Nat
  column : Nat
  loaded : Nat
deriving DecidableEq, Repr

namespace Place

def start : Place := ⟨1, 0, 0⟩

/-- The offset of the pending character; `-1` while none is loaded. -/
def offset (p : Place) : Int := p.loaded - 1

/-- The counters once the pending character `c` is passed and `rest` is left. A line feed ends its
line when it is passed; at the end of the text no character is loaded and the counters stay. -/
def past (p : Place) (c : Char) (rest : List Char) : Place :=
  let p := if c = '\n' then { p with line := p.line + 1, column := 0 } else p
  match rest with
  | [] => p
  | _ :: _ => { p with column := p.column + 1, loaded := p.loaded + 1 }

/-- The place that messages name; before the first character it is that of the first character. -/
def location (p : Place) (file : String) : Location :=
  ⟨file, p.line, (max p.column 1 : Nat), (p.loaded - 1 : Nat)⟩

end Place

/-- A cursor: the pending character is the first of `text`. -/
structure Cursor where
  file : String
  text : List Char
  place : Place
deriving DecidableEq, Repr

namespace Cursor

/-- The cursor in front of a source. -/
def start (file : String) (source : List Char) : Cursor := ⟨file, ' ' :: source, .start⟩

def location (c : Cursor) : Location := c.place.location c.file

def advance (c : Cursor) : Cursor :=
  match c.text with
  | [] => c
  | x :: rest => { c with text := rest, place := c.place.past x rest }

def skip : Nat → Cursor → Cursor
  | 0, c => c
  | n + 1, c => skip n c.advance

@[simp] theorem text_advance (c : Cursor) : c.advance.text = c.text.drop 1 := by
  unfold advance
  split <;> simp_all

@[simp] theorem text_skip (n : Nat) (c : Cursor) : (c.skip n).text = c.text.drop n := by
  induction n generalizing c with
  | zero => rfl
  | succ n ih => rw [skip, ih, text_advance, List.drop_drop, Nat.add_comm]

end Cursor

/-- Whether a character ends a line, and with it a comment. -/
def endsLine (c : Char) : Bool := c == '\n' || c == '\r'

end ScalarLang
