import LoopKernel.Affine.Constraint
import LoopKernel.Affine.Elimination
import LoopKernel.Affine.Form
import LoopKernel.Axis.Assignment
import LoopKernel.Axis.Ranking
import LoopKernel.Boost.Inference
import LoopKernel.Boost.Limits
import LoopKernel.Certificate.Basic
import LoopKernel.Checked
import LoopKernel.Device.Basic
import LoopKernel.Device.Conflicts
import LoopKernel.Device.Reading
import LoopKernel.Diagnostic
import LoopKernel.Digest.Sha256
import LoopKernel.Dtype
import LoopKernel.Expr.Basic
import LoopKernel.Expr.Evaluation
import LoopKernel.Expr.Text
import LoopKernel.FreshName
import LoopKernel.Iname.Split
import LoopKernel.IndexTag
import LoopKernel.Json.Basic
import LoopKernel.Json.Reading
import LoopKernel.Kernel.Basic
import LoopKernel.Kernel.Fingerprint
import LoopKernel.Kernel.Flops
import LoopKernel.Kernel.Json
import LoopKernel.Kernel.Lengths
import LoopKernel.Kernel.Strides
import LoopKernel.Kernel.Text
import LoopKernel.NameSet
import LoopKernel.Number.Binary64
import LoopKernel.Number.Decimal
import LoopKernel.Number.Fraction
import LoopKernel.Pass
import LoopKernel.Polyhedron.Basic
import LoopKernel.Polyhedron.Bounds
import LoopKernel.Polyhedron.Checks
import LoopKernel.Polyhedron.Count
import LoopKernel.Polyhedron.Points
import LoopKernel.Polynomial.Basic
import LoopKernel.Polynomial.Summation
import LoopKernel.Preprocess
import LoopKernel.Proofs.Affine.Canonical
import LoopKernel.Proofs.Affine.Constraint
import LoopKernel.Proofs.Affine.Content
import LoopKernel.Proofs.Affine.Decision
import LoopKernel.Proofs.Affine.Difference
import LoopKernel.Proofs.Affine.Elimination
import LoopKernel.Proofs.Affine.Form
import LoopKernel.Proofs.Affine.Range
import LoopKernel.Proofs.Affine.Relaxation
import LoopKernel.Proofs.Axis.Assignment
import LoopKernel.Proofs.Axis.Completion
import LoopKernel.Proofs.Axis.Exclusive
import LoopKernel.Proofs.Axis.Locality
import LoopKernel.Proofs.Axis.Ranking
import LoopKernel.Proofs.Axis.Termination
import LoopKernel.Proofs.Boost.Boostability
import LoopKernel.Proofs.Boost.Cycles
import LoopKernel.Proofs.Boost.DataFlow
import LoopKernel.Proofs.Boost.Dependencies
import LoopKernel.Proofs.Boost.InPlace
import LoopKernel.Proofs.Boost.Repetition
import LoopKernel.Proofs.Boost.Stability
import LoopKernel.Proofs.Certificate.Kept
import LoopKernel.Proofs.Certificate.Obligations
import LoopKernel.Proofs.Checked
import LoopKernel.Proofs.Device.Conflicts
import LoopKernel.Proofs.Execution.Accumulation
import LoopKernel.Proofs.Execution.InTurn
import LoopKernel.Proofs.Execution.Meaning
import LoopKernel.Proofs.Execution.Plain
import LoopKernel.Proofs.Execution.Projection
import LoopKernel.Proofs.Execution.Run
import LoopKernel.Proofs.Expr.AffineForm
import LoopKernel.Proofs.Expr.Arithmetic
import LoopKernel.Proofs.Expr.Binders
import LoopKernel.Proofs.Expr.Evaluation
import LoopKernel.Proofs.Expr.Exact
import LoopKernel.Proofs.Expr.FreeNames
import LoopKernel.Proofs.Expr.Occurrence
import LoopKernel.Proofs.Expr.Range
import LoopKernel.Proofs.FreshName
import LoopKernel.Proofs.Hygiene
import LoopKernel.Proofs.Idempotence
import LoopKernel.Proofs.Iname.Mentions
import LoopKernel.Proofs.Iname.Preservation
import LoopKernel.Proofs.Iname.Removal
import LoopKernel.Proofs.Iname.Split
import LoopKernel.Proofs.Json.Numeral
import LoopKernel.Proofs.Json.Reading
import LoopKernel.Proofs.Kernel.Flops
import LoopKernel.Proofs.Kernel.Json
import LoopKernel.Proofs.Kernel.Lengths
import LoopKernel.Proofs.Kernel.Strides
import LoopKernel.Proofs.NameSet
import LoopKernel.Proofs.Number.Decimal
import LoopKernel.Proofs.Number.Fraction
import LoopKernel.Proofs.Overflow
import LoopKernel.Proofs.Polyhedron.Basic
import LoopKernel.Proofs.Polyhedron.Bounded
import LoopKernel.Proofs.Polyhedron.Bounds
import LoopKernel.Proofs.Polyhedron.Checks
import LoopKernel.Proofs.Polyhedron.Count
import LoopKernel.Proofs.Polyhedron.Dimensions
import LoopKernel.Proofs.Polyhedron.Emptiness
import LoopKernel.Proofs.Polyhedron.Extent
import LoopKernel.Proofs.Polyhedron.Listing
import LoopKernel.Proofs.Polyhedron.Points
import LoopKernel.Proofs.Polyhedron.Projection
import LoopKernel.Proofs.Polyhedron.Simplification
import LoopKernel.Proofs.Polyhedron.Summation
import LoopKernel.Proofs.Polynomial.Canonical
import LoopKernel.Proofs.Polynomial.DefiniteSum
import LoopKernel.Proofs.Polynomial.Evaluation
import LoopKernel.Proofs.Polynomial.Identity
import LoopKernel.Proofs.Polynomial.PowerSum
import LoopKernel.Proofs.Polynomial.Summation
import LoopKernel.Proofs.Polynomial.Value
import LoopKernel.Proofs.Preprocess
import LoopKernel.Proofs.Reachability
import LoopKernel.Proofs.Reduction.Absence
import LoopKernel.Proofs.Reduction.Accumulator
import LoopKernel.Proofs.Reduction.Assignees
import LoopKernel.Proofs.Reduction.Consistency
import LoopKernel.Proofs.Reduction.Dependencies
import LoopKernel.Proofs.Reduction.Duplication
import LoopKernel.Proofs.Reduction.Emission
import LoopKernel.Proofs.Reduction.Extents
import LoopKernel.Proofs.Reduction.Initialization
import LoopKernel.Proofs.Reduction.Lowering
import LoopKernel.Proofs.Reduction.Preservation
import LoopKernel.Proofs.Reduction.Realized
import LoopKernel.Proofs.Reduction.Records
import LoopKernel.Proofs.Reduction.Renaming
import LoopKernel.Proofs.Reduction.Separation
import LoopKernel.Proofs.Schedule.Calls
import LoopKernel.Proofs.Schedule.Nesting
import LoopKernel.Proofs.Schedule.Tables
import LoopKernel.Proofs.SortedMap
import LoopKernel.Proofs.Source.Alike
import LoopKernel.Proofs.Source.Assignment
import LoopKernel.Proofs.Source.Building
import LoopKernel.Proofs.Source.Derivation
import LoopKernel.Proofs.Source.Exchange
import LoopKernel.Proofs.Source.Grammar
import LoopKernel.Proofs.Source.Layout
import LoopKernel.Proofs.Source.Lexer
import LoopKernel.Proofs.Source.Loaded
import LoopKernel.Proofs.Source.Lowering
import LoopKernel.Proofs.Source.Parsing
import LoopKernel.Proofs.Source.Places
import LoopKernel.Proofs.Source.Printing
import LoopKernel.Proofs.Source.Range
import LoopKernel.Proofs.Source.Reads
import LoopKernel.Proofs.Source.Spelling
import LoopKernel.Proofs.Source.WellFormed
import LoopKernel.Proofs.Source.Writing
import LoopKernel.Proofs.Storage.Locality
import LoopKernel.Proofs.Storage.Padding
import LoopKernel.Proofs.Storage.Repetition
import LoopKernel.Proofs.Storage.Search
import LoopKernel.Proofs.Storage.Writes
import LoopKernel.Proofs.WellFormed.Attributes
import LoopKernel.Proofs.WellFormed.Basic
import LoopKernel.Proofs.WellFormed.Runs
import LoopKernel.Reachability
import LoopKernel.Reduction.Duplication
import LoopKernel.Reduction.Realization
import LoopKernel.Schedule.Item
import LoopKernel.Schedule.Tables
import LoopKernel.SortedMap
import LoopKernel.Source.Grammar
import LoopKernel.Source.Lexer
import LoopKernel.Source.Loading
import LoopKernel.Source.Lowering
import LoopKernel.Source.Parsing
import LoopKernel.Source.Span
import LoopKernel.Source.Token
import LoopKernel.Source.Tree
import LoopKernel.Storage.Locality
import LoopKernel.Storage.Padding
import LoopKernel.Text.CharClass
import LoopKernel.Text.Quoted
import LoopKernel.Proofs.Polyhedron.ExactBounds
