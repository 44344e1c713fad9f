import MatrixCalculator.Main
import MatrixCalculator.Proofs.Base.RoundTrip
import MatrixCalculator.Proofs.Blanks
import MatrixCalculator.Proofs.CommandLine.Batch
import MatrixCalculator.Proofs.Depth
import MatrixCalculator.Proofs.DisplayedScalars
import MatrixCalculator.Proofs.Expression.FlatChain
import MatrixCalculator.Proofs.Expression.Localized
import MatrixCalculator.Proofs.Expression.Splicing
import MatrixCalculator.Proofs.Expression.UnaryForms
import MatrixCalculator.Proofs.Literal.Reading
import MatrixCalculator.Proofs.Numeral.Root
import MatrixCalculator.Proofs.Numeral.Typed
import MatrixCalculator.Proofs.Scalar.Numerals
import MatrixCalculator.Proofs.Scalar.Scanning
import MatrixCalculator.Proofs.Expression.Fields
import MatrixCalculator.Proofs.Expression.TypedNumerals
import MatrixCalculator.Proofs.Expression.Factorials
import MatrixCalculator.Proofs.Expression.Balance
import MatrixCalculator.Proofs.Expression.MarkSequences
import MatrixCalculator.Proofs.Expression.Differences
import MatrixCalculator.Proofs.Expression.UndefinedParts
import MatrixCalculator.Proofs.Matrix.WholePowers
import MatrixCalculator.Proofs.Literal.Pattern
import MatrixCalculator.Proofs.Expression.Instantiation
import MatrixCalculator.Proofs.Base.Conversion
import MatrixCalculator.Proofs.Scalar.Entered
import MatrixCalculator.Proofs.Operator.Guarded
import MatrixCalculator.Proofs.Expression.GroupNesting
import MatrixCalculator.Proofs.Expression.WrittenNumbers
import MatrixCalculator.Proofs.Base.GroupPlaces
import MatrixCalculator.Proofs.Base.GroupedSequences
import MatrixCalculator.Proofs.Base.SignedZero
import MatrixCalculator.Proofs.Chain.Joining
import MatrixCalculator.Proofs.Expression.Applications
import MatrixCalculator.Proofs.Expression.OverflowingFactorials
import MatrixCalculator.Proofs.Expression.BoundedDepth
import MatrixCalculator.Proofs.FactorialRange
import MatrixCalculator.Proofs.Matrix.RepeatedSquaring
import MatrixCalculator.Proofs.Matrix.Eigenvalues
import MatrixCalculator.Proofs.Matrix.Eigenspaces
import MatrixCalculator.Proofs.Matrix.GuardedSpectra
import MatrixCalculator.Proofs.Scalar.Automaton
import MatrixCalculator.Proofs.Scalar.BytePositions
import MatrixCalculator.Proofs.Scalar.ByteScanner
