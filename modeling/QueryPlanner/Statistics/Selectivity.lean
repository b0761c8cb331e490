/-
# Selectivity

The share of rows for which a predicate is expected to be TRUE, and from it the
statistics of an operator's output.

Equality with a column keeps one of its distinct values; a comparison interpolates
between the column's least and greatest value; conjunctions multiply, and disjunctions
multiply what they leave out. Anything else keeps a tenth.
-/
import QueryPlanner.Statistics

namespace QueryPlanner

open Quantity

namespace Statistics

variable {ν : Type} [Quantity ν]

/-- The selectivity of a predicate nothing is known about. -/
def defaultSelectivity : ν := ofDecimal 1 1

/-- The selectivity of a comparison nothing is known about. -/
def rangeDefault : ν := ofDecimal 33 2

/-- The selectivity of an equality with a column. -/
def equalitySelectivity (s : Statistics ν) (column : String) : ν :=
  match s.columns.get? column with
  | some known => ofNat 1 / max known.distinct (ofNat 1)
  | none => defaultSelectivity

/-- The least and the greatest value of a column, where both are numbers. -/
def bounds (s : Statistics ν) (column : String) : Option (ν × ν) := do
  let known ← s.columns.get? column
  let least ← known.least
  let greatest ← known.greatest
  let low : ν ← least.measure
  let high : ν ← greatest.measure
  pure (low, high)

/-- The selectivity of comparing a column with a value, by interpolation. -/
def rangeSelectivity (s : Statistics ν) (column : String) (op : BinaryOp) (value : Scalar) : ν :=
  match s.bounds column, (value.measure : Option ν) with
  | some (low, high), some v =>
      if le high low then rangeDefault
      else
        let below := clamp ((v - low) / (high - low)) (ofNat 0) (ofNat 1)
        match op with
        | .lt => below
        | .ltEq => below
        | .gt => ofNat 1 - below
        | .gtEq => ofNat 1 - below
        | _ => rangeDefault
  | _, _ => rangeDefault

/-- The selectivity of an equality, by the first side that is a column. -/
def equality (s : Statistics ν) : Expr → Expr → ν
  | .column c, _ => s.equalitySelectivity c.name
  | _, .column c => s.equalitySelectivity c.name
  | _, _ => defaultSelectivity

/-- The selectivity of a comparison between a column and a literal, in either order. -/
def comparison (s : Statistics ν) (op : BinaryOp) : Expr → Expr → ν
  | .column c, .literal v => s.rangeSelectivity c.name op v
  | .literal v, .column c => s.rangeSelectivity c.name op.flip v
  | _, _ => rangeDefault

mutual

/-- The share of rows for which a predicate is expected to be TRUE. -/
def selectivity (s : Statistics ν) : Expr → ν
  | .binary .eq l r => s.equality l r
  | .binary .lt l r => s.comparison .lt l r
  | .binary .ltEq l r => s.comparison .ltEq l r
  | .binary .gt l r => s.comparison .gt l r
  | .binary .gtEq l r => s.comparison .gtEq l r
  | .literal (.bool true) => ofNat 1
  | .and es => product (selectivities s es)
  | .or es => ofNat 1 - product ((selectivities s es).map fun x => ofNat 1 - x)
  | _ => defaultSelectivity

/-- `selectivity` for every expression of a list. -/
def selectivities (s : Statistics ν) : List Expr → List ν
  | [] => []
  | e :: es => selectivity s e :: selectivities s es

end

/-- The names of the columns that a condition compares for equality, as pairs. -/
def equalColumns (condition : Expr) : List (String × String) :=
  condition.conjuncts.filterMap fun
    | .binary .eq (.column l) (.column r) => some (l.name, r.name)
    | _ => none

end Statistics

/-- The statistics of an operator's output, from those of its inputs and those of the
tables. -/
def Operator.estimate {ν : Type} [Quantity ν] (tables : TableName → Option (Statistics ν)) :
    Operator → List (Statistics ν) → Statistics ν
  | .values t rows, _ => .ofValues t rows
  | .scan table _, _ => (tables table).getD .unknown
  | .filter p, input :: _ => input.filter (input.selectivity p)
  | .project exprs t, input :: _ => input.project exprs t
  | .join type c, left :: right :: _ =>
      let joined := left.join right (Statistics.equalColumns c)
      match type with
      | .inner => joined
      | .left => { joined with rows := max joined.rows left.rows }
  | .limit offset count, input :: _ => input.limit offset count
  | .sort _, input :: _ => input
  | .converter _, input :: _ => input
  | _, _ => .unknown

end QueryPlanner
