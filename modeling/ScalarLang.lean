import ScalarLang.Command.Directory
import ScalarLang.Command.Options
import ScalarLang.Command.Run
import ScalarLang.Command.Usage
import ScalarLang.Command.Whole
import ScalarLang.Decimal.Double
import ScalarLang.Decimal.Literal
import ScalarLang.Decimal.Shortest
import ScalarLang.Decimal.Written
import ScalarLang.Diagnostic
import ScalarLang.Engine.Choice
import ScalarLang.Engine.Operation
import ScalarLang.Engine.Rejection
import ScalarLang.Engine.Store
import ScalarLang.Engine.Trap
import ScalarLang.IR.Engine
import ScalarLang.IR.Evaluate
import ScalarLang.IR.Link
import ScalarLang.IR.Lower
import ScalarLang.IR.Module
import ScalarLang.IR.Names
import ScalarLang.IR.Printer
import ScalarLang.IR.Runtime
import ScalarLang.Interpreter.Code
import ScalarLang.Interpreter.Engine
import ScalarLang.Ledger
import ScalarLang.Main
import ScalarLang.Math.Native
import ScalarLang.Math.Routine
import ScalarLang.Operator.Setting
import ScalarLang.Operator.Table
import ScalarLang.Parse.Expression
import ScalarLang.Parse.Failure
import ScalarLang.Parse.Form
import ScalarLang.Parse.Mention
import ScalarLang.Parse.Reader
import ScalarLang.Session.Event
import ScalarLang.Session.Run
import ScalarLang.Source.Cursor
import ScalarLang.Source.Input
import ScalarLang.Source.Location
import ScalarLang.Syntax.Expr
import ScalarLang.Syntax.Printer
import ScalarLang.Text.Blank
import ScalarLang.Text.Digit
import ScalarLang.Text.Printable
import ScalarLang.Text.Quoted
import ScalarLang.Text.Upper
import ScalarLang.Text.Utf8
import ScalarLang.Token.Basic
import ScalarLang.Token.Input
import ScalarLang.Token.Scan
import ScalarLang.Proofs.Command.Status
import ScalarLang.Proofs.Engine.Acceptance
import ScalarLang.Proofs.Engine.Agreement
import ScalarLang.Proofs.Engine.Budget
import ScalarLang.Proofs.Engine.CallGraph
import ScalarLang.Proofs.Engine.Chronicle
import ScalarLang.Proofs.Engine.History
import ScalarLang.Proofs.Engine.Kept
import ScalarLang.Proofs.Engine.Meaning
import ScalarLang.Proofs.Engine.Returned
import ScalarLang.Proofs.Engine.Transaction
import ScalarLang.Proofs.IR.Comparison
import ScalarLang.Proofs.IR.Compiled
import ScalarLang.Proofs.IR.Correctness
import ScalarLang.Proofs.IR.Linking
import ScalarLang.Proofs.IR.Lowering
import ScalarLang.Proofs.IR.Names
import ScalarLang.Proofs.IR.Reached
import ScalarLang.Proofs.IR.Simulation
import ScalarLang.Proofs.IR.Verified
import ScalarLang.Proofs.IR.WellFormed
import ScalarLang.Proofs.Interpreter.Binding
import ScalarLang.Proofs.Interpreter.Evaluation
import ScalarLang.Proofs.Interpreter.Faults
import ScalarLang.Proofs.Interpreter.Meaning
import ScalarLang.Proofs.Interpreter.Order
import ScalarLang.Proofs.Interpreter.Safety
import ScalarLang.Proofs.Interpreter.Termination
import ScalarLang.Proofs.Interpreter.Unplaced
import ScalarLang.Proofs.Interpreter.Violations
import ScalarLang.Proofs.Ledger
import ScalarLang.Proofs.Math.Special
import ScalarLang.Proofs.Operator.History
import ScalarLang.Proofs.Operator.Installed
import ScalarLang.Proofs.Parse.Acceptance
import ScalarLang.Proofs.Parse.Alike
import ScalarLang.Proofs.Parse.Budget
import ScalarLang.Proofs.Parse.Depth
import ScalarLang.Proofs.Parse.Newlines
import ScalarLang.Proofs.Parse.Places
import ScalarLang.Proofs.Parse.Precedence
import ScalarLang.Proofs.Parse.Progress
import ScalarLang.Proofs.Parse.Ranking
import ScalarLang.Proofs.Parse.Reached
import ScalarLang.Proofs.Parse.Rejected
import ScalarLang.Proofs.Parse.Rendering
import ScalarLang.Proofs.Parse.Rows
import ScalarLang.Proofs.Parse.Soundness
import ScalarLang.Proofs.Parse.Sources
import ScalarLang.Proofs.Session.Alike
import ScalarLang.Proofs.Session.Composition
import ScalarLang.Proofs.Session.Endings
import ScalarLang.Proofs.Session.Live
import ScalarLang.Proofs.Session.Loops
import ScalarLang.Proofs.Session.Presentation
import ScalarLang.Proofs.Session.Replay
import ScalarLang.Proofs.Session.Segments
import ScalarLang.Proofs.Session.Separation
import ScalarLang.Proofs.Session.Steps
import ScalarLang.Proofs.Session.Tally
import ScalarLang.Proofs.Session.Transcript
import ScalarLang.Proofs.Syntax.Unambiguous
import ScalarLang.Proofs.Token.Decimals
import ScalarLang.Proofs.Token.Juncture
import ScalarLang.Proofs.Token.Layout
import ScalarLang.Proofs.Token.Literals
import ScalarLang.Proofs.Token.Newlines
import ScalarLang.Proofs.Token.Positions
import ScalarLang.Proofs.Token.Segmentation
import ScalarLang.Proofs.Token.Separators
import ScalarLang.Proofs.Token.Symbols
import ScalarLang.Proofs.Unplaced
