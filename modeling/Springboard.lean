import Springboard.Command
import Springboard.Command.Files
import Springboard.Command.Options
import Springboard.Compiler
import Springboard.Emission.Identifier
import Springboard.Emission.Piece
import Springboard.Error
import Springboard.Evaluation
import Springboard.Fault
import Springboard.Helper
import Springboard.Machine.Code
import Springboard.Machine.Load
import Springboard.Machine.Run
import Springboard.Main
import Springboard.NameSource
import Springboard.Number
import Springboard.Number.Arithmetic
import Springboard.Number.Binary64
import Springboard.Number.Numeral
import Springboard.Number.Power
import Springboard.Number.Shortest
import Springboard.Operator
import Springboard.Proofs.Abstraction
import Springboard.Proofs.Activation
import Springboard.Proofs.Agreement
import Springboard.Proofs.Aiming
import Springboard.Proofs.Apartness
import Springboard.Proofs.Assembly
import Springboard.Proofs.Balance
import Springboard.Proofs.Bouncing
import Springboard.Proofs.Chains
import Springboard.Proofs.Coinage
import Springboard.Proofs.Comparison
import Springboard.Proofs.Compilation
import Springboard.Proofs.Composition
import Springboard.Proofs.Connectives
import Springboard.Proofs.Continuations
import Springboard.Proofs.Conversion
import Springboard.Proofs.Definitions
import Springboard.Proofs.Destination
import Springboard.Proofs.Drawing
import Springboard.Proofs.Driving
import Springboard.Proofs.Emission
import Springboard.Proofs.Entrance
import Springboard.Proofs.Evaluation
import Springboard.Proofs.Failure
import Springboard.Proofs.FloatBits
import Springboard.Proofs.Forms
import Springboard.Proofs.FreeVariables
import Springboard.Proofs.FreshNames
import Springboard.Proofs.Grammar
import Springboard.Proofs.Identities
import Springboard.Proofs.Layout
import Springboard.Proofs.Lexicon
import Springboard.Proofs.Likeness
import Springboard.Proofs.Logging
import Springboard.Proofs.Mirroring
import Springboard.Proofs.Nodes
import Springboard.Proofs.Noting
import Springboard.Proofs.Numbering
import Springboard.Proofs.Numerals
import Springboard.Proofs.Occurrences
import Springboard.Proofs.Order
import Springboard.Proofs.Outcome
import Springboard.Proofs.Passing
import Springboard.Proofs.Phrasing
import Springboard.Proofs.Preparation
import Springboard.Proofs.Pursuit
import Springboard.Proofs.Reading
import Springboard.Proofs.Reflection
import Springboard.Proofs.Renaming
import Springboard.Proofs.Renumbering
import Springboard.Proofs.Retention
import Springboard.Proofs.Returning
import Springboard.Proofs.Rounding
import Springboard.Proofs.Running
import Springboard.Proofs.Scoping
import Springboard.Proofs.Sessions
import Springboard.Proofs.SetFlags
import Springboard.Proofs.Shape
import Springboard.Proofs.Shortest
import Springboard.Proofs.Signatures
import Springboard.Proofs.Sites
import Springboard.Proofs.Spelling
import Springboard.Proofs.Stranding
import Springboard.Proofs.Surface
import Springboard.Proofs.Threading
import Springboard.Proofs.Tiling
import Springboard.Proofs.Tokens
import Springboard.Proofs.Tracking
import Springboard.Proofs.Trampolining
import Springboard.Proofs.Triviality
import Springboard.Proofs.Truncation
import Springboard.Proofs.Valuation
import Springboard.Proofs.Visiting
import Springboard.Proofs.Walks
import Springboard.Proofs.Writing
import Springboard.Session
import Springboard.Sorted
import Springboard.Source.Event
import Springboard.Source.Form
import Springboard.Source.Position
import Springboard.Source.Surface
import Springboard.Text.Blank
import Springboard.Text.Clipped
import Springboard.Text.Digit
import Springboard.Text.Identifier
import Springboard.Text.Parts
import Springboard.Text.Printable
import Springboard.Text.Quoted
import Springboard.Text.Ranges
import Springboard.Tree
import Springboard.Tree.Abstract
import Springboard.Tree.Build
import Springboard.Tree.Convert
import Springboard.Tree.Display
import Springboard.Tree.Equality
import Springboard.Tree.Rename
import Springboard.Tree.Rules
import Springboard.Tree.Suspend
import Springboard.Tree.Trampoline
