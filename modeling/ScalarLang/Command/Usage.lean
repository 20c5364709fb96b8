import ScalarLang.Command.Options

/-!
What the command says about itself.
-/
namespace ScalarLang.Command

def usage : String :=
  "usage: kaleidoscope [-h] [-b \x7binterpreter,llvm\x7d] [-O \x7b0,1,2,3\x7d] [-q]\n" ++
  "                    [--prompt PROMPT] [--keep-token-on-backend-error] [-v]\n" ++
  "                    [file]\n"

def helpText : String :=
  usage ++
  "\nEvaluate Kaleidoscope definitions and expressions.\n" ++
  "\npositional arguments:\n" ++
  "  file                  source file (default: stdin)\n" ++
  "\noptions:\n" ++
  "  -h, --help            show this help message and exit\n" ++
  "  -b \x7binterpreter,llvm\x7d, --backend \x7binterpreter,llvm\x7d\n" ++
  "                        code generation backend (default: interpreter)\n" ++
  "  -O \x7b0,1,2,3\x7d, --opt-level \x7b0,1,2,3\x7d\n" ++
  "                        LLVM optimization level (default: 2)\n" ++
  "  -q, --quiet, --no-echo\n" ++
  "                        print only evaluated values and errors\n" ++
  "  --prompt PROMPT       prompt text (default: 'ready> ' when stdin is a\n" ++
  "                        terminal)\n" ++
  "  --keep-token-on-backend-error\n" ++
  "                        after a backend error, resume at the next token\n" ++
  "                        instead of skipping it\n" ++
  "  -v, --verbose         log lexer, parser and backend activity\n"

def usageError (message : String) : String := usage ++ s!"kaleidoscope: error: {message}\n"

end ScalarLang.Command
