import Curly.Command.Basic
import Curly.Command.Folder
import Curly.Main
import Curly.Number.Binary
import Curly.Number.Layout
import Curly.Number.Remainder
import Curly.Number.Shortest
import Curly.Problem.Basic
import Curly.Problem.Diagnostic
import Curly.Proofs.Grammar.Basic
import Curly.Proofs.Grammar.Brackets
import Curly.Proofs.Grammar.Completeness
import Curly.Proofs.Grammar.Cutoff
import Curly.Proofs.Grammar.Exactness
import Curly.Proofs.Grammar.Faults
import Curly.Proofs.Grammar.FirstError
import Curly.Proofs.Grammar.Harmless
import Curly.Proofs.Grammar.Lines
import Curly.Proofs.Grammar.Powers
import Curly.Proofs.Grammar.Roles
import Curly.Proofs.Grammar.Shape
import Curly.Proofs.Grammar.Slices
import Curly.Proofs.Grammar.Soundness
import Curly.Proofs.Grammar.Spelling
import Curly.Proofs.Grammar.Stuck
import Curly.Proofs.Grammar.Transport
import Curly.Proofs.Reading.Alongside
import Curly.Proofs.Reading.Depth
import Curly.Proofs.Reading.Failure
import Curly.Proofs.Reading.Steps
import Curly.Proofs.Reading.Triple
import Curly.Proofs.Run.Depth
import Curly.Proofs.Run.Footprint
import Curly.Proofs.Run.Frame
import Curly.Proofs.Run.Invariant
import Curly.Proofs.Run.Limits
import Curly.Proofs.Run.Parallel
import Curly.Proofs.Run.Resolution
import Curly.Proofs.Run.Safety
import Curly.Proofs.Run.Sequence
import Curly.Proofs.Run.Triple
import Curly.Proofs.Run.Visibility
import Curly.Proofs.Scope.Extension
import Curly.Proofs.Scope.Layout
import Curly.Proofs.Scope.Values
import Curly.Proofs.Session.Independence
import Curly.Proofs.Session.Lines
import Curly.Proofs.Session.Safety
import Curly.Proofs.Token.Gist
import Curly.Proofs.Token.Lexemes
import Curly.Proofs.Token.Seam
import Curly.Proofs.Token.Sequence
import Curly.Proofs.Token.Splice
import Curly.Proofs.Token.Streams
import Curly.Proofs.Token.Writing
import Curly.Proofs.Tree.Roles
import Curly.Proofs.Tree.Scoping
import Curly.Proofs.Tree.Similar
import Curly.Proofs.UpTo
import Curly.Run.Evaluation
import Curly.Run.Fault
import Curly.Run.Operators
import Curly.Run.State
import Curly.Scope.Arena
import Curly.Scope.Chain
import Curly.Session.Basic
import Curly.Session.Trace
import Curly.Text.Blank
import Curly.Text.Newlines
import Curly.Text.Numeral
import Curly.Text.Position
import Curly.Text.Printable
import Curly.Text.Quoted
import Curly.Text.Span
import Curly.Token.Basic
import Curly.Token.Fault
import Curly.Token.Kind
import Curly.Token.Lexeme
import Curly.Token.Stream
import Curly.Token.Table
import Curly.Tree.Basic
import Curly.Tree.Cursor
import Curly.Tree.Fault
import Curly.Tree.Outline
import Curly.Tree.Rules
import Curly.Tree.Unit
import Curly.Value.Basic
import Curly.Value.Display
import Curly.Proofs.Grammar.Units
import Curly.Proofs.Session.Units
import Curly.Proofs.Reading.Buffer
import Curly.Proofs.Run.Skipped
import Curly.Proofs.Token.Places
import Curly.Proofs.Token.Segmentation
import Curly.Proofs.Grammar.Braces
import Curly.Proofs.Grammar.Climbing
import Curly.Proofs.Grammar.Names
import Curly.Proofs.Grammar.Spans
import Curly.Proofs.Tree.Renaming
import Curly.Proofs.Run.Renaming
import Curly.Proofs.Run.Blame
import Curly.Proofs.Text.Position
import Curly.Proofs.Problem.Excerpt
import Curly.Proofs.Value.Display
import Curly.Proofs.Text.Offset
import Curly.Proofs.Token.Symbols
import Curly.Proofs.Value.Alike
import Curly.Proofs.Tree.Alike
import Curly.Proofs.Tree.Outline
import Curly.Proofs.Grammar.Outline
