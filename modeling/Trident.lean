import Trident.Driver
import Trident.Ir.ExprCorrect
import Trident.Ir.Function
import Trident.Ir.Counters
import Trident.Ir.WellFormed
import Trident.Source.Exec
import Trident.Ir.ControlFlow
import Trident.Ir.Jumps
import Trident.Ir.Paths
import Trident.Amd64.Machine
import Trident.Amd64.Instructions
import Trident.Amd64.Frame
import Trident.Amd64.Calls
import Trident.Amd64.Alignment
import Trident.Amd64.Convention
import Trident.Ir.Emitted
import Trident.Amd64.Activation
import Trident.Amd64.Refinement
import Trident.Ir.Trace
import Trident.Ir.Visits
import Trident.Amd64.Vectors
import Trident.Foundation.Guarded
import Trident.Ir.Faults
import Trident.Ir.Scoping
import Trident.Lexing.Pieces
import Trident.Lexing.Coverage
import Trident.Lexing.Printing
import Trident.Ir.Module
import Trident.Amd64.Symbols
import Trident.Amd64.Compiled
import Trident.Amd64.Literals
import Trident.Amd64.Definitions
import Trident.Ir.Uses
import Trident.Amd64.External
import Trident.Foundation.Precedence
import Trident.Parser.Chains
import Trident.Parser.Printing
import Trident.Parser.Grouping
import Trident.Parser.Progress
import Trident.Ir.Reports
import Trident.Amd64.Diagnosed
import Trident.Ir.Assignment
import Trident.Parser.Consumed
import Trident.Ir.Operators
import Trident.Source.Observed
import Trident.Ir.Indexing
import Trident.Lexing.Numbers
import Trident.Lexing.Positions
import Trident.Lexing.Comments
import Trident.Amd64.Library
import Trident.Parser.Reading
import Trident.Parser.Inverse
import Trident.Ir.Hopeless
import Trident.Parser.Bare
import Trident.Amd64.Returns
import Trident.Foundation.Procedures
import Trident.Parser.Procedures
import Trident.Parser.Termination
import Trident.Foundation.InPlace
import Trident.Lexing.Decoding
import Trident.Linking.Refinement
import Trident.Formatting
import Trident.Linking.Putchar
import Trident.Parser.Misplaced
import Trident.Parser.LastToken
import Trident.Acceptance
