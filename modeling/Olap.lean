import Olap.Calc.Basic
import Olap.Calc.Compile
import Olap.Calc.Dependency
import Olap.Calc.Operand
import Olap.Catalog.Assembly
import Olap.Catalog.Builder
import Olap.Catalog.Cube
import Olap.Catalog.Error
import Olap.Catalog.Member
import Olap.Catalog.Roster
import Olap.Catalog.Tree
import Olap.Cell.Reader
import Olap.Config.Basic
import Olap.Config.Json
import Olap.Decimal.Shortest
import Olap.Decimal.Text
import Olap.Diagnostic
import Olap.Double
import Olap.Engine
import Olap.Error
import Olap.Evaluation.Operation
import Olap.Evaluation.Run
import Olap.Evaluation.State
import Olap.Execution.Cancellation
import Olap.Execution.Phase
import Olap.Execution.Timing
import Olap.Expr
import Olap.Function.Arithmetic
import Olap.Function.Builtins
import Olap.Function.Conversion
import Olap.Function.Definition
import Olap.Function.Navigation
import Olap.Function.Resolver
import Olap.Function.Signature
import Olap.Function.Sorting
import Olap.Function.Table
import Olap.Number
import Olap.Proofs.Catalog.Navigation
import Olap.Proofs.Evaluation.Exec
import Olap.Proofs.Tuple.Rows
import Olap.Sorting.Merge
import Olap.Sorting.Permutation
import Olap.Sorting.Small
import Olap.Sorting.Stable
import Olap.Tuple.Cursor
import Olap.Tuple.List
import Olap.Tuple.Source
import Olap.Typing.Category
import Olap.Typing.Types
import Olap.Validation
import Olap.Value
import Olap.Proofs.Evaluation.Domain
import Olap.Proofs.Evaluation.Composed
import Olap.Proofs.Evaluation.Operations
import Olap.Proofs.Evaluation.Frame
import Olap.Proofs.Catalog.Built
import Olap.Proofs.Catalog.Regular
import Olap.Proofs.Calc.WellFormed
import Olap.Proofs.Calc.Compile
import Olap.Proofs.Function.Resolution
import Olap.Proofs.Validation
import Olap.Proofs.Cell.Faithful
import Olap.Proofs.Evaluation.Coordinates
import Olap.Proofs.Evaluation.Mirrors
import Olap.Proofs.Execution.Batching
import Olap.Proofs.Calc.Dependence
import Olap.Proofs.Evaluation.Agreement
import Olap.Proofs.Evaluation.Dependence
import Olap.Proofs.Evaluation.Independence
import Olap.Proofs.Evaluation.Nesting
import Olap.Proofs.Evaluation.Caching
import Olap.Proofs.Binding
import Olap.Proofs.Calc.Total
import Olap.Proofs.Calc.Truthful
import Olap.Proofs.Calc.TruthfulCalls
import Olap.Proofs.Calc.TruthfulTrees
import Olap.Proofs.Evaluation.Belonging
import Olap.Proofs.Calc.Styles
import Olap.Proofs.Tuple.Collect
import Olap.Proofs.Evaluation.Holding
import Olap.Proofs.Evaluation.Laziness
import Olap.Proofs.Cell.Layers
import Olap.Proofs.Cell.Queue
import Olap.Proofs.Evaluation.Reads
import Olap.Proofs.Execution.Progress
import Olap.Proofs.Tuple.Cursors
import Olap.Proofs.Evaluation.Sequences
import Olap.Proofs.Tuple.Limits
import Olap.Proofs.Evaluation.Capped
import Olap.Proofs.Evaluation.Limits
import Olap.Proofs.Tuple.Plain
import Olap.Proofs.Revalidation
import Olap.Proofs.Catalog.Positions
import Olap.Proofs.Evaluation.Comparison
import Olap.Proofs.Catalog.Names
import Olap.Proofs.Catalog.Lookup
import Olap.Proofs.Execution.Stopping
import Olap.Proofs.Catalog.Nodes
import Olap.Proofs.Catalog.Ledger
import Olap.Proofs.Catalog.Preorder
import Olap.Proofs.Evaluation.Locality
import Olap.Proofs.Evaluation.Joins
import Olap.Proofs.Sorting.Merging
import Olap.Proofs.Sorting.Stability
import Olap.Proofs.Evaluation.Replay
import Olap.Proofs.Function.TreeOrder
import Olap.Proofs.Evaluation.Ordering
import Olap.Proofs.Cell.RollUp
import Olap.Proofs.Function.Rewriting
import Olap.Proofs.Evaluation.Replacing
import Olap.Proofs.Parameters
import Olap.Proofs.Function.Braces
import Olap.Proofs.Calc.Braces
import Olap.Proofs.Evaluation.Braces
import Olap.Proofs.Function.Categories
import Olap.Proofs.Evaluation.Returns
import Olap.Proofs.Evaluation.WholeNumbers
import Olap.Proofs.Double.Value
import Olap.Proofs.Double.Nearest
import Olap.Proofs.Evaluation.Numerals
import Olap.Proofs.Catalog.Descendants
import Olap.Proofs.Catalog.Levels
import Olap.Proofs.Evaluation.Descendants
import Olap.Proofs.Evaluation.LevelMembers
import Olap.Proofs.Catalog.AllMember
import Olap.Proofs.Function.Scalars
import Olap.Proofs.Evaluation.Rounds
import Olap.Proofs.Function.Arity
import Olap.Proofs.Evaluation.Filtering
import Olap.Proofs.Evaluation.NonEmpty
import Olap.Proofs.Typing.Join
import Olap.Proofs.Function.Elements
import Olap.Proofs.Evaluation.Savepoints
import Olap.Proofs.Occurrences
import Olap.Proofs.Evaluation.Rendering
import Olap.Proofs.Evaluation.Styles
import Olap.Proofs.Calc.Styled
import Olap.Proofs.Calc.StyledCalls
import Olap.Proofs.Evaluation.StylesKept
import Olap.Proofs.Catalog.Drilling
import Olap.Proofs.Evaluation.Drilling
import Olap.Proofs.Catalog.Assembly
import Olap.Proofs.Catalog.Walk
