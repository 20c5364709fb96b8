import ScalarLang.Text.Quoted

/-!
Places in a source text, for messages.
-/
namespace ScalarLang

/-- A place in a named source. Where a source is read, line and column count from one and the offset
in characters from zero; a place that is made up can have any numbers. -/
structure Location where
  file : String
  line : Int
  column : Int
  offset : Int
deriving DecidableEq, Repr, Inhabited

namespace Location

def text (l : Location) : String := s!"{l.file}:{l.line}:{l.column}"

def inspect (l : Location) : String :=
  s!"SourceLocation({Text.quoted l.file}, {l.line}, {l.column}, {l.offset})"

end Location
end ScalarLang
