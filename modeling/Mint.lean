import Mint.Number
import Mint.Node
import Mint.Class
import Mint.Outcome
import Mint.Sink
import Mint.Value
import Mint.Scope
import Mint.Heap
import Mint.Value.Text
import Mint.Machine
import Mint.Dispatch
import Mint.Path
import Mint.Eval
import Mint.Token
import Mint.Line
import Mint.Source
import Mint.Folder
import Mint.Reading
import Mint.Cursor
import Mint.Parser
import Mint.Parser.Expression
import Mint.Parser.Statement
import Mint.Program
import Mint.Interpreter
import Mint.CommandLine
import Mint.Text.Ranges
import Mint.Text.Extending
import Mint.Text.Invisible
import Mint.Dump
import Mint.Proofs.Eval.Congruence
import Mint.Eval.Fuel
import Mint.Main
import Mint.Token.Spelling
import Mint.Program.Printer
import Mint.Proofs.Eval.StrayReturn
import Mint.Proofs.Eval.Truncation
import Mint.Proofs.Grammar
import Mint.Proofs.Parser.Moves
import Mint.Proofs.Line
import Mint.Proofs.Grammar.Tokens
import Mint.Proofs.Parser.ExpressionSound
import Mint.Proofs.Parser.ExpressionComplete
import Mint.Proofs.Derivation
import Mint.Proofs.Spelling
import Mint.Proofs.Layout
import Mint.Proofs.Parser.Lines
import Mint.Proofs.Parser.StatementSound
import Mint.Proofs.Parser.StatementComplete
import Mint.Proofs.Parse
import Mint.Proofs.Printing.Rows
import Mint.Proofs.Returns
import Mint.Proofs.Concatenation
import Mint.Proofs.Parser.Trace
import Mint.Proofs.Parser.Log
import Mint.Proofs.Parser.TraceSound
import Mint.Proofs.Parser.Steady
import Mint.Proofs.Parser.Balance
import Mint.Proofs.Nesting
import Mint.Proofs.Printing
import Mint.Proofs.Lexer
import Mint.Proofs.Lexer.Reference
import Mint.Proofs.Parser.Congruence
import Mint.Proofs.Parser.Ending
import Mint.Proofs.Parser.Locality
import Mint.Proofs.Failure
import Mint.Proofs.Eval.Invariant
import Mint.Proofs.Reachability
import Mint.Proofs.Eval.Activity
import Mint.Proofs.MissingMethods
import Mint.Proofs.ClassOrder
import Mint.Proofs.Outline
import Mint.Proofs.Binding
import Mint.Proofs.Termination
import Mint.Proofs.Lexer.LineNumbers
import Mint.Proofs.Scanning
import Mint.Proofs.Canonical
import Mint.Proofs.Eval.Parts
import Mint.Proofs.Eval.Course
import Mint.Proofs.WellFormed
import Mint.Proofs.CleanText
import Mint.Proofs.Eval.Position
import Mint.Proofs.Store
import Mint.Proofs.Variables
import Mint.Proofs.Calls
import Mint.Proofs.Rendering
import Mint.Proofs.Parser.Rejection
import Mint.Proofs.Targets
import Mint.Proofs.Agreement
import Mint.Proofs.DottedNames
import Mint.Proofs.FieldWrites
import Mint.Proofs.Arithmetic
import Mint.Proofs.Numerals
import Mint.Proofs.Comparisons
import Mint.Proofs.Spacing
import Mint.Proofs.DeadCode
import Mint.Proofs.BlankLines
import Mint.Proofs.Inheritance
import Mint.Proofs.Parser.Counted
import Mint.Proofs.Parser.Progress
