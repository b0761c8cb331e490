/-
# Implementors

An implementor turns the operators of one convention into fragments. The fragments of
an operator's inputs come in the convention that it required of them: generated code
for a compiled filter, and a pipeline for the right side of a compiled join.
-/
import QueryPlanner.Code.Generation
import QueryPlanner.Code.Lowering
import QueryPlanner.Plan

namespace QueryPlanner

/-- Turns the operators of a convention into fragments. -/
structure Implementor (ν : Type) where
  convention : Convention
  /-- The fragment of a node, from those of its inputs. -/
  implement : PlanNode ν → List Fragment → Generate Fragment

namespace Implementor

variable {ν : Type}

/-! ## Inputs -/

/-- The complaint about an operator without an implementation. -/
def unsupported {α : Type} (node : PlanNode ν) : Generate α :=
  throw (.unsupported node.op.kind node.convention)

/-- The complaint about inputs that are not as expected. -/
def mismatch {α : Type} (node : PlanNode ν) (expected : String) : Generate α :=
  throw (.fragmentMismatch node.op.display expected)

/-- The only input. -/
def single (node : PlanNode ν) : List Fragment → Generate Fragment
  | [input] => pure input
  | _ => mismatch node "single input"

/-- The left and the right input. -/
def pair (node : PlanNode ν) : List Fragment → Generate (Fragment × Fragment)
  | [left, right] => pure (left, right)
  | _ => mismatch node "two inputs"

/-- An input as a pipeline. -/
def asPipeline (node : PlanNode ν) : Fragment → Generate Pipeline
  | .iterator p => pure p
  | _ => mismatch node "iterator"

/-- An input as generated code. -/
def asCode (node : PlanNode ν) : Fragment → Generate CodeBlock
  | .code block => pure block
  | _ => mismatch node "code"

/-- The only input, as a pipeline. -/
def singlePipeline (node : PlanNode ν) (inputs : List Fragment) : Generate Pipeline := do
  asPipeline node (← single node inputs)

/-- The only input, as generated code. -/
def singleCode (node : PlanNode ν) (inputs : List Fragment) : Generate CodeBlock := do
  asCode node (← single node inputs)

/-! ## Pipelines -/

/-- The number of columns of a node's right input. -/
def rightWidth (node : PlanNode ν) : Nat :=
  match node.children with
  | _ :: right :: _ => right.rowType.width
  | _ => 0

/-- The pipeline of a node. -/
def pipeline (node : PlanNode ν) (inputs : List Fragment) : Generate Pipeline := do
  match node.op with
  | .values _ rows => pure (.values rows)
  | .scan table _ => pure (.scan table)
  | .filter p => pure (.filter (← singlePipeline node inputs) p)
  | .project exprs _ => pure (.project (← singlePipeline node inputs) exprs)
  | .join type condition =>
      let (left, right) ← pair node inputs
      pure (.join (← asPipeline node left) (← asPipeline node right) type condition
        (rightWidth node))
  | .sort order => pure (.sort (← singlePipeline node inputs) order)
  | .limit offset count => pure (.limit (← singlePipeline node inputs) offset count)
  | .converter _ => unsupported node

/-- Pulling. -/
def iterator : Implementor ν where
  convention := .iterator
  implement node inputs := do pure (.iterator (← pipeline node inputs))

/-! ## Generated code -/

/-- What the current row of generated code is. -/
inductive RowForm where
  | positional
  | record
  deriving DecidableEq, Repr

/-- The row type of a node's input; that of a leaf's output. -/
def inputType (node : PlanNode ν) : RowType :=
  match node.children with
  | input :: _ => input.rowType
  | [] => node.rowType

/-- An expression as code over a row of some form in a variable. -/
def RowForm.lower (form : RowForm) (e : Expr) (v : Var) (t : RowType) : CodeExpr :=
  match form with
  | positional => .lowerPositional e v
  | record => .lowerNamed e v t

/-- A row of some form from its values. -/
def RowForm.make (form : RowForm) (values : List CodeExpr) (t : RowType) : CodeExpr :=
  match form with
  | positional => .makeRow values
  | record => .toRecord (.makeRow values) t.names

/-- A filter: the rest runs only where the predicate is TRUE. -/
def filterCode (form : RowForm) (node : PlanNode ν) (p : Expr) (input : CodeBlock) :
    Generate CodeBlock := do
  let current ← Generate.fresh
  pure (input.extend
    [.assign current input.row, .ifThen (form.lower p current (inputType node)) [.hole]]
    (.var current))

/-- A projection: the current row is replaced by the computed one. -/
def projectCode (form : RowForm) (node : PlanNode ν) (exprs : List Expr) (t : RowType)
    (input : CodeBlock) : Generate CodeBlock := do
  let current ← Generate.fresh
  let values := exprs.map fun e => form.lower e current (inputType node)
  pure (input.extend [.assign current input.row, .hole] (form.make values t))

/-- An inner join: for each left row a loop over all right rows. -/
def joinCode (condition : Expr) (left : CodeBlock) (right : Pipeline) : Generate CodeBlock := do
  let outer ← Generate.fresh
  let cursor ← Generate.fresh
  let inner ← Generate.fresh
  let joined ← Generate.fresh
  pure (left.extend
    [.assign outer left.row,
      .openCursor cursor right,
      .whileDo (.hasNext cursor)
        [.assign inner (.next cursor),
          .assign joined (.concat (.var outer) (.var inner)),
          .ifThen (.lowerPositional condition joined) [.hole]]]
    (.var joined))

/-- Generated code over rows of some form; joins need positional ones. -/
def code (form : RowForm) (node : PlanNode ν) (inputs : List Fragment) : Generate CodeBlock := do
  match node.op, form with
  | .filter p, _ => filterCode form node p (← singleCode node inputs)
  | .project exprs t, _ => projectCode form node exprs t (← singleCode node inputs)
  | .join .inner condition, .positional =>
      let (left, right) ← pair node inputs
      let left ← asCode node left
      let right ← asPipeline node right
      joinCode condition left right
  | _, _ => unsupported node

/-- Generated code over positional rows. -/
def compiled : Implementor ν where
  convention := .compiled
  implement node inputs := do pure (.code (← code .positional node inputs))

/-- Generated code over records. -/
def compiledRecord : Implementor ν where
  convention := .compiledRecord
  implement node inputs := do pure (.code (← code .record node inputs))

/-! ## Foreign sources -/

/-- Tables where they are. -/
def federated : Implementor ν where
  convention := .federated
  implement node _ :=
    match node.op with
    | .scan table t => pure (.remote table t)
    | _ => unsupported node

/-- The implementors every planner starts with. -/
def builtin : List (Implementor ν) := [iterator, compiled, compiledRecord, federated]

end Implementor

end QueryPlanner
