import Reckoner.Code.Basic
import Reckoner.Code.Build
import Reckoner.Code.Compile
import Reckoner.Code.Listing
import Reckoner.Code.Machine
import Reckoner.Code.Scalar
import Reckoner.Decimal.Binary
import Reckoner.Decimal.Nearest
import Reckoner.Decimal.Numeral
import Reckoner.Decimal.Shortest
import Reckoner.Decimal.Style
import Reckoner.Demonstration
import Reckoner.Evaluation.Basic
import Reckoner.Evaluation.Error
import Reckoner.Evaluation.Lowering
import Reckoner.Expr.Basic
import Reckoner.Expr.Parser
import Reckoner.Expr.SyntaxError
import Reckoner.Main
import Reckoner.Prompt.Options
import Reckoner.Prompt.Path
import Reckoner.Prompt.Transcript
import Reckoner.Proofs.Bits
import Reckoner.Proofs.Blocks
import Reckoner.Proofs.Calls
import Reckoner.Proofs.Caret
import Reckoner.Proofs.Classes
import Reckoner.Proofs.Columns
import Reckoner.Proofs.Complete
import Reckoner.Proofs.Conversation
import Reckoner.Proofs.Counterpart
import Reckoner.Proofs.Cursor
import Reckoner.Proofs.Depth
import Reckoner.Proofs.Edges
import Reckoner.Proofs.Emission
import Reckoner.Proofs.Emitter
import Reckoner.Proofs.Evaluation
import Reckoner.Proofs.Flow
import Reckoner.Proofs.Frozen
import Reckoner.Proofs.Generation
import Reckoner.Proofs.Grammar
import Reckoner.Proofs.History
import Reckoner.Proofs.Instructions
import Reckoner.Proofs.Interchange
import Reckoner.Proofs.Isolation
import Reckoner.Proofs.Layout
import Reckoner.Proofs.Lines
import Reckoner.Proofs.Lowering
import Reckoner.Proofs.Meaning
import Reckoner.Proofs.Munch
import Reckoner.Proofs.Numerals
import Reckoner.Proofs.Operations
import Reckoner.Proofs.Outcome
import Reckoner.Proofs.Parentheses
import Reckoner.Proofs.Parsing
import Reckoner.Proofs.Positions
import Reckoner.Proofs.Printing
import Reckoner.Proofs.Refusals
import Reckoner.Proofs.Relexing
import Reckoner.Proofs.Rollback
import Reckoner.Proofs.Rounding
import Reckoner.Proofs.Samples
import Reckoner.Proofs.Scanning
import Reckoner.Proofs.Shortest
import Reckoner.Proofs.Simulation
import Reckoner.Proofs.SingleAssignment
import Reckoner.Proofs.Slices
import Reckoner.Proofs.Slots
import Reckoner.Proofs.Spacing
import Reckoner.Proofs.Spelling
import Reckoner.Proofs.Steps
import Reckoner.Proofs.Table
import Reckoner.Proofs.Uniformity
import Reckoner.Proofs.Walks
import Reckoner.Proofs.Windows
import Reckoner.Proofs.Wrapping
import Reckoner.Sample
import Reckoner.Session
import Reckoner.Storage
import Reckoner.Text.Blank
import Reckoner.Text.Digit
import Reckoner.Text.Letter
import Reckoner.Text.Printable
import Reckoner.Text.Quoted
import Reckoner.Text.Ranges
import Reckoner.Token.Basic
import Reckoner.Token.Lexer
import Reckoner.Token.Position
import Reckoner.Token.Spacing
import Reckoner.Variables
