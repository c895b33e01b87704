import TapeC.Cell
import TapeC.CommandLine
import TapeC.CommandLine.Request
import TapeC.Compile
import TapeC.Diagnostic
import TapeC.Disk
import TapeC.Document
import TapeC.Fault
import TapeC.Grammar.Expression
import TapeC.Grammar.Program
import TapeC.Grammar.Statement
import TapeC.Grammar.Step
import TapeC.Include
import TapeC.Layout.Contents
import TapeC.Layout.Definitions
import TapeC.Layout.Place
import TapeC.Layout.Scopes
import TapeC.Layout.Shape
import TapeC.Lowering.Basic
import TapeC.Lowering.Call
import TapeC.Lowering.Control
import TapeC.Lowering.Operation
import TapeC.Lowering.Switch
import TapeC.Lowering.Tree
import TapeC.Main
import TapeC.Position
import TapeC.Program.Basic
import TapeC.Program.Constant
import TapeC.Program.Document
import TapeC.Program.Folding
import TapeC.Program.Operator
import TapeC.Proofs.Access
import TapeC.Proofs.Arithmetic
import TapeC.Proofs.Bitwise
import TapeC.Proofs.Block
import TapeC.Proofs.Builtin
import TapeC.Proofs.Call
import TapeC.Proofs.Command
import TapeC.Proofs.Comparison
import TapeC.Proofs.Computation
import TapeC.Proofs.Contents
import TapeC.Proofs.Distance
import TapeC.Proofs.Evaluation
import TapeC.Proofs.Execution
import TapeC.Proofs.Expression
import TapeC.Proofs.Frame
import TapeC.Proofs.Guard
import TapeC.Proofs.Lowers
import TapeC.Proofs.Machine
import TapeC.Proofs.Matching
import TapeC.Proofs.Operand
import TapeC.Proofs.Operator
import TapeC.Proofs.Place
import TapeC.Proofs.Scoping
import TapeC.Proofs.Selection
import TapeC.Proofs.Series
import TapeC.Proofs.Statement
import TapeC.Proofs.Syntax
import TapeC.Proofs.Transfer
import TapeC.Proofs.Value
import TapeC.Proofs.Walk
import TapeC.Proofs.Window
import TapeC.Routine.Arithmetic
import TapeC.Routine.Bitwise
import TapeC.Routine.Builtin
import TapeC.Routine.Comparison
import TapeC.Routine.Guard
import TapeC.Routine.Transfer
import TapeC.Routine.Value
import TapeC.Routine.Walk
import TapeC.Tape.Block
import TapeC.Tape.Code
import TapeC.Tape.Listing
import TapeC.Tape.Machine
import TapeC.Text.Blank
import TapeC.Text.Bytes
import TapeC.Text.Escaped
import TapeC.Text.Quoted
import TapeC.Token.Basic
import TapeC.Token.Rule
import TapeC.Token.Scan
import TapeC.Proofs.Closed
import TapeC.Proofs.Function
import TapeC.Proofs.Globals
import TapeC.Proofs.Program
import TapeC.Proofs.Definitions
import TapeC.Proofs.Optimization
import TapeC.Proofs.Compilation
import TapeC.Proofs.Initialized
import TapeC.Proofs.Alike
import TapeC.Proofs.AlikeControl
import TapeC.Proofs.AlikeTree
import TapeC.Proofs.AlikeProgram
import TapeC.Proofs.Annotation
import TapeC.Proofs.Diagnostics
import TapeC.Proofs.Budget
import TapeC.Proofs.Output
import TapeC.Proofs.Expansion
import TapeC.Proofs.Recursion
import TapeC.Proofs.Confined
import TapeC.Proofs.Effect
import TapeC.Proofs.ConfinedExpression
import TapeC.Proofs.ConfinedStatement
import TapeC.Proofs.Locality
import TapeC.Proofs.Safety
import TapeC.Proofs.Inclusion
import TapeC.Proofs.Reading
import TapeC.Proofs.RoundTrip
import TapeC.Proofs.AssertedProgram
import TapeC.Proofs.Joined
import TapeC.Proofs.Allocation
import TapeC.Proofs.Chosen
import TapeC.Proofs.Conditional
import TapeC.Proofs.Indexing
import TapeC.Proofs.Course
import TapeC.Proofs.Vicinity
import TapeC.Proofs.Exact
import TapeC.Proofs.Endless
import TapeC.Proofs.ZeroDivisor
import TapeC.Proofs.Route
import TapeC.Proofs.Initial
import TapeC.Proofs.Resolution
import TapeC.Proofs.Printing
import TapeC.Proofs.Line
import TapeC.Proofs.Normal
import TapeC.Proofs.Bracket
import TapeC.Proofs.DisplacedStatement
import TapeC.Proofs.Relocation
import TapeC.Proofs.Desugaring
import TapeC.Proofs.Pattern
import TapeC.Proofs.Lexeme
import TapeC.Proofs.Longest
import TapeC.Proofs.Tiling
import TapeC.Proofs.Respacing
import TapeC.Proofs.TrailingComment
import TapeC.Proofs.Cursor
import TapeC.Proofs.CursorExpression
import TapeC.Proofs.CursorStatement
import TapeC.Proofs.CursorProgram
import TapeC.Proofs.Escape
import TapeC.Proofs.Footprint
import TapeC.Proofs.Factors
