import ScalarLang.Text.Quoted

/-!
The engines to choose from, by name.
-/
namespace ScalarLang

inductive EngineChoice where
  | interpreter
  | llvm
deriving DecidableEq, Repr, Inhabited

namespace EngineChoice

def all : List EngineChoice := [interpreter, llvm]

def name : EngineChoice → String
  | interpreter => "interpreter"
  | llvm => "llvm"

def ofName? (text : String) : Option EngineChoice := all.find? fun choice => choice.name == text

/-- How a choice is reported that is no engine; `shown` is how it is written. -/
def unknown (shown : String) : String :=
  s!"unknown backend {shown}, expected one of " ++ ", ".intercalate (all.map name)

end EngineChoice
end ScalarLang
