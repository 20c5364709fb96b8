import ScalarLang.Token.Scan

/-!
What can go wrong while a form is read: a malformed literal, or a token that cannot stand where it
stands. Reading can also be started in front of the first token, where there is none to look at, or
at a token that does not mean what is read.
-/
namespace ScalarLang

namespace Diagnostic

def missingToken (message : String) (suggestions : List String) (found : Token) : Diagnostic where
  message := message
  location := found.location
  code := "P001"
  help := s!"Found {found.describe} instead."
  suggestions := suggestions

def unknownToken (found : Token) : Diagnostic where
  message := "unknown token when expecting an expression"
  location := found.location
  code := "P002"
  help := s!"An expression starts with a number, an identifier or '(', not {found.describe}."
  suggestions := ["Check for a missing operand", "Check for a dangling operator"]

def badPrototype (message : String) (found : Token) : Diagnostic where
  message := message
  location := found.location
  code := "P003"
  help := s!"Prototypes look like 'name(a b c)'; found {found.describe}."

/-- The token at which nesting went too deep. -/
def tooNested (found : Token) : Diagnostic where
  message := "expression nested too deeply"
  location := found.location
  code := "P004"
  help := "Split the expression into smaller functions."

/-- The end of a source that holds no form. -/
def noForm (found : Token) : Diagnostic where
  message := "expected a definition, extern or expression"
  location := found.location
  code := "P001"

end Diagnostic

/-- What should have stood in place of the token that was found. -/
inductive Expectation where
  | closingParen
  | argumentEnd
  | operand
  | functionName
  | parameterStart
  | parameterEnd
  | newParameter (name : String)
  | lessNesting
  | form
deriving DecidableEq, Repr

namespace Expectation

def diagnostic (found : Token) : Expectation → Diagnostic
  | closingParen => .missingToken "expected ')'" ["Add a closing parenthesis ')'"] found
  | argumentEnd =>
    .missingToken "expected ')' or ',' in argument list"
      ["Separate arguments with ','", "Close the call with ')'"] found
  | operand => .unknownToken found
  | functionName => .badPrototype "expected function name in prototype" found
  | parameterStart => .badPrototype "expected '(' in prototype" found
  | parameterEnd => .badPrototype "expected ')' in prototype" found
  | newParameter name => .badPrototype s!"duplicate parameter name '{name}' in prototype" found
  | lessNesting => .tooNested found
  | form => .noForm found

end Expectation

/-- What a token is looked at for: its kind, or what it means. -/
inductive Aspect where
  | kind
  | meaning
deriving DecidableEq, Repr

inductive Failure where
  | malformed (fault : Malformed)
  | unexpected (expected : Expectation) (found : Token)
  | noToken (sought : Aspect)
  | notNumber (found : Meaning)
  | notName (found : Meaning)
deriving Repr

namespace Failure

def diagnostic : Failure → Diagnostic
  | malformed fault => fault.diagnostic
  | unexpected expected found => expected.diagnostic found
  | noToken _ => { message := "no token has been read", location := none }
  | notNumber found => { message := s!"{found.inspect} is not a number", location := none }
  | notName found => { message := s!"{found.inspect} is not a name", location := none }

end Failure
end ScalarLang
