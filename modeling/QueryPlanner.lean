import QueryPlanner.Catalog
import QueryPlanner.Code
import QueryPlanner.Code.Generation
import QueryPlanner.Code.Lowering
import QueryPlanner.Code.Printer
import QueryPlanner.Convention
import QueryPlanner.Convertlet
import QueryPlanner.Cost
import QueryPlanner.Decimal.Shortest
import QueryPlanner.Decimal.Style
import QueryPlanner.Dictionary
import QueryPlanner.Double
import QueryPlanner.Execution
import QueryPlanner.Execution.Cursor
import QueryPlanner.Execution.Machine
import QueryPlanner.Execution.Operation
import QueryPlanner.Execution.RowStream
import QueryPlanner.Execution.Value
import QueryPlanner.Expr
import QueryPlanner.Expr.Evaluation
import QueryPlanner.Implementor
import QueryPlanner.Json
import QueryPlanner.Json.Printer
import QueryPlanner.Json.Reader
import QueryPlanner.Memo
import QueryPlanner.Memo.Extraction
import QueryPlanner.Memo.Insertion
import QueryPlanner.Operator
import QueryPlanner.OptimizationError
import QueryPlanner.Pattern
import QueryPlanner.Plan
import QueryPlanner.Plan.Encoding
import QueryPlanner.Plan.Execution
import QueryPlanner.Plan.Generation
import QueryPlanner.Proofs.Bag
import QueryPlanner.Proofs.Bag.Equations
import QueryPlanner.Proofs.Code.Holes
import QueryPlanner.Proofs.Code.Splicing
import QueryPlanner.Proofs.Columns
import QueryPlanner.Proofs.Commuting
import QueryPlanner.Proofs.Comparison
import QueryPlanner.Proofs.Conjuncts
import QueryPlanner.Proofs.Conversions
import QueryPlanner.Proofs.Conversions.Shortest
import QueryPlanner.Proofs.Cost
import QueryPlanner.Proofs.Estimates
import QueryPlanner.Proofs.Exact
import QueryPlanner.Proofs.Execution.Answers
import QueryPlanner.Proofs.Execution.Blocks
import QueryPlanner.Proofs.Execution.Loops
import QueryPlanner.Proofs.Execution.Scopes
import QueryPlanner.Proofs.Execution.Statements
import QueryPlanner.Proofs.Execution.Streams
import QueryPlanner.Proofs.Filters
import QueryPlanner.Proofs.Flattening
import QueryPlanner.Proofs.Likeness
import QueryPlanner.Proofs.Likeness.Expressions
import QueryPlanner.Proofs.Likeness.Operators
import QueryPlanner.Proofs.Likeness.Plans
import QueryPlanner.Proofs.Limits
import QueryPlanner.Proofs.Logical
import QueryPlanner.Proofs.Logical.Insertion
import QueryPlanner.Proofs.Logical.Layers
import QueryPlanner.Proofs.Logical.Limits
import QueryPlanner.Proofs.Logical.Resolution
import QueryPlanner.Proofs.Loops
import QueryPlanner.Proofs.Lowering
import QueryPlanner.Proofs.Memo.Bounds
import QueryPlanner.Proofs.Memo.Calls
import QueryPlanner.Proofs.Memo.Consistency
import QueryPlanner.Proofs.Memo.Copies
import QueryPlanner.Proofs.Memo.Cycles
import QueryPlanner.Proofs.Memo.Edits
import QueryPlanner.Proofs.Memo.Frame
import QueryPlanner.Proofs.Memo.Grounding
import QueryPlanner.Proofs.Memo.Growth
import QueryPlanner.Proofs.Memo.Leaders
import QueryPlanner.Proofs.Memo.Meaning
import QueryPlanner.Proofs.Memo.Merging
import QueryPlanner.Proofs.Memo.Notes
import QueryPlanner.Proofs.Memo.Progress
import QueryPlanner.Proofs.Memo.Reread
import QueryPlanner.Proofs.Memo.Shapes
import QueryPlanner.Proofs.Plan.Answers
import QueryPlanner.Proofs.Plan.Evaluation
import QueryPlanner.Proofs.Plan.Extraction
import QueryPlanner.Proofs.Plan.Fragments
import QueryPlanner.Proofs.Plan.Generation
import QueryPlanner.Proofs.Plan.Integrity
import QueryPlanner.Proofs.Plan.Widths
import QueryPlanner.Proofs.Proposal
import QueryPlanner.Proofs.Registration
import QueryPlanner.Proofs.Registry
import QueryPlanner.Proofs.Request.Ceilings
import QueryPlanner.Proofs.Request.Costs
import QueryPlanner.Proofs.Request.Tables
import QueryPlanner.Proofs.Rewriting
import QueryPlanner.Proofs.Rounding
import QueryPlanner.Proofs.Rule
import QueryPlanner.Proofs.Running
import QueryPlanner.Proofs.Safety
import QueryPlanner.Proofs.Search.Attained
import QueryPlanner.Proofs.Search.Availability
import QueryPlanner.Proofs.Search.Bounds
import QueryPlanner.Proofs.Search.Budget
import QueryPlanner.Proofs.Search.Ceiling
import QueryPlanner.Proofs.Search.Commuting
import QueryPlanner.Proofs.Search.Converters
import QueryPlanner.Proofs.Search.Cycles
import QueryPlanner.Proofs.Search.Derivation
import QueryPlanner.Proofs.Search.Divergence
import QueryPlanner.Proofs.Search.Estimation
import QueryPlanner.Proofs.Search.Failures
import QueryPlanner.Proofs.Search.Finiteness
import QueryPlanner.Proofs.Search.Grounding
import QueryPlanner.Proofs.Search.History
import QueryPlanner.Proofs.Search.Insertion
import QueryPlanner.Proofs.Search.Integrity
import QueryPlanner.Proofs.Search.Invariants
import QueryPlanner.Proofs.Search.Meaning
import QueryPlanner.Proofs.Search.Monotonicity
import QueryPlanner.Proofs.Search.Native
import QueryPlanner.Proofs.Search.Optimality
import QueryPlanner.Proofs.Search.Potential
import QueryPlanner.Proofs.Search.Pricing
import QueryPlanner.Proofs.Search.Projections
import QueryPlanner.Proofs.Search.Reachability
import QueryPlanner.Proofs.Search.Relaxation
import QueryPlanner.Proofs.Search.Repricing
import QueryPlanner.Proofs.Search.Reread
import QueryPlanner.Proofs.Search.Rounds
import QueryPlanner.Proofs.Search.RowTypes
import QueryPlanner.Proofs.Search.Saturation
import QueryPlanner.Proofs.Search.Statistics
import QueryPlanner.Proofs.Search.Steps
import QueryPlanner.Proofs.Search.Termination
import QueryPlanner.Proofs.Shape
import QueryPlanner.Proofs.Sorting
import QueryPlanner.Proofs.Sorting.Arrangement
import QueryPlanner.Proofs.Sorting.Images
import QueryPlanner.Proofs.Sorting.Merging
import QueryPlanner.Proofs.Sorting.Runs
import QueryPlanner.Proofs.Soundness
import QueryPlanner.Proofs.Suggestion
import QueryPlanner.Proofs.Suitability
import QueryPlanner.Proofs.Typing
import QueryPlanner.Proofs.Vocabulary
import QueryPlanner.Proofs.Weight
import QueryPlanner.Quantity
import QueryPlanner.Registry
import QueryPlanner.Registry.Standard
import QueryPlanner.Request
import QueryPlanner.Request.Decoding
import QueryPlanner.Request.Resolution
import QueryPlanner.RowType
import QueryPlanner.Rule
import QueryPlanner.Rule.Implementation
import QueryPlanner.Rule.Transformation
import QueryPlanner.Scalar
import QueryPlanner.Search
import QueryPlanner.Search.Expansion
import QueryPlanner.Search.Optimize
import QueryPlanner.Search.Pricing
import QueryPlanner.Service
import QueryPlanner.Service.Settings
import QueryPlanner.Sorting
import QueryPlanner.Statistics
import QueryPlanner.Statistics.Selectivity
import QueryPlanner.Text.LetterCase
import QueryPlanner.Text.LetterCase.Table
import QueryPlanner.Text.Quoted
import QueryPlanner.Text.Visible
