/-
# Statistics

Estimates of how many rows a relation has, how large they are and what its columns
hold. They are derived from those of an operator's inputs:

| operator | output rows |
|----------|-------------|
| values   | exact, with the distinct and missing values of each column counted |
| scan     | what the catalog knows |
| filter   | input * selectivity |
| project  | input; a plain column keeps its statistics under its new name |
| join     | left * right / the larger number of distinct keys |
| limit    | input - offset, between zero and count |
-/
import QueryPlanner.Dictionary
import QueryPlanner.Operator
import QueryPlanner.Quantity

namespace QueryPlanner

open Quantity

/-- What is known about one column. -/
structure ColumnStatistics (ν : Type) where
  /-- The number of distinct values. -/
  distinct : ν
  /-- The share of rows without a value. -/
  missing : ν
  least : Option Scalar := none
  greatest : Option Scalar := none
  deriving Inhabited

/-- What is known about a relation. -/
structure Statistics (ν : Type) where
  rows : ν
  bytes : ν
  columns : Dictionary String (ColumnStatistics ν) := []
  deriving Inhabited

/-- The number that a scalar stands for, if it stands for one. -/
def Scalar.measure {ν : Type} [Quantity ν] : Scalar → Option ν
  | .int n => some (ofInt n.toInt)
  | .float x => some (ofFloat x.toFloat)
  | .date d => some (ofInt d.toInt)
  | _ => none

namespace Statistics

variable {ν : Type} [Quantity ν]

/-- What is assumed of a relation nothing is known about. -/
def unknown : Statistics ν := ⟨ofNat 1000, ofNat 100000, []⟩

/-- The size of one row; a fixed guess for a relation without rows. -/
def rowBytes (s : Statistics ν) : ν := if lt (ofNat 0) s.rows then s.bytes / s.rows else ofNat 100

/-- Statistics of a relation with `rows` rows of `width` columns. -/
def sized (rows : ν) (width : Nat) : Statistics ν := ⟨rows, rows * ofNat 8 * ofNat width, []⟩

/-! ## Deriving statistics -/

/-- Whether the first of two numbers, each given with its measure, comes before the other:
by the order of measures, and a not-a-number of negative sign before all of them. -/
def comesBefore (a b : ν × Scalar) : Bool :=
  let (first, second) := (a.2.isNegativeNaN, b.2.isNegativeNaN)
  if first || second then first && !second else precedes a.1 b.1

/-- The least of some numbers, the first of several. -/
def leastOf : List (ν × Scalar) → Option (ν × Scalar)
  | [] => none
  | a :: rest => some (rest.foldl (fun best x => if comesBefore x best then x else best) a)

/-- The greatest of some numbers, the last of several. -/
def greatestOf : List (ν × Scalar) → Option (ν × Scalar)
  | [] => none
  | a :: rest => some (rest.foldl (fun best x => if comesBefore x best then best else x) a)

/-- What the given values tell about their column, of `rows` rows in all. -/
def ofColumn (rows : ν) (values : List Scalar) : ColumnStatistics ν :=
  let present := values.filter fun v => !v.isNull
  let numbers := values.filterMap fun v => (v.measure : Option ν).map (·, v)
  { distinct := ofNat (present.map Scalar.canonical).eraseDups.length
    missing := ofNat (values.filter Scalar.isNull).length / rows
    least := (leastOf numbers).map Prod.snd
    greatest := (greatestOf numbers).map Prod.snd }

/-- Exact statistics of given rows. -/
def ofValues (t : RowType) (rows : List Row) : Statistics ν :=
  let count : ν := ofNat rows.length
  let base := sized count t.width
  if rows.isEmpty then base
  else
    { base with
      columns := t.fields.zipIdx.foldl
        (fun columns (f, i) => columns.insert f.name (ofColumn count (rows.filterMap (·[i]?)))) [] }

/-- Statistics of a projection: only bare columns keep theirs. -/
def project (input : Statistics ν) (exprs : List Expr) (output : RowType) : Statistics ν :=
  let carry (columns : Dictionary String (ColumnStatistics ν)) : Expr × Field → _
    | (.column c, f) => match input.columns.get? c.name with
      | some known => columns.insert f.name known
      | none => columns
    | _ => columns
  { rows := input.rows
    bytes := input.rows * input.rowBytes
    columns := (exprs.zip output.fields).foldl carry [] }

/-- The number of distinct values of a column; all rows, where nothing is known of it. -/
def distinctOr (s : Statistics ν) (column : String) : ν :=
  match s.columns.get? column with
  | some known => known.distinct
  | none => s.rows

/-- Statistics of an inner join on equal columns. -/
def join (left right : Statistics ν) (equal : List (String × String)) : Statistics ν :=
  let share (selectivity : ν) : String × String → ν
    | (l, r) => selectivity / max (max (left.distinctOr l) (right.distinctOr r)) (ofNat 1)
  let selectivity := equal.foldl share (ofNat 1)
  let rows := max (left.rows * right.rows * selectivity) (ofNat 1)
  { rows := rows
    bytes := rows * (left.rowBytes + right.rowBytes)
    columns := (left.columns.override right.columns).mapValues fun c =>
      { c with distinct := min c.distinct rows } }

/-- Statistics of the rows that a predicate of the given selectivity keeps. -/
def filter (input : Statistics ν) (selectivity : ν) : Statistics ν :=
  let rows := max (input.rows * selectivity) (ofNat 1)
  let ratio := if lt (ofNat 0) input.rows then rows / input.rows else ofNat 1
  { rows := rows
    bytes := input.bytes * ratio
    columns := input.columns.mapValues fun c =>
      { c with distinct := min (max (c.distinct * ratio) (ofNat 1)) rows } }

/-- Statistics of at most `count` rows after the first `offset`. -/
def limit (input : Statistics ν) (offset count : Nat) : Statistics ν :=
  let rows := clamp (input.rows - ofNat offset) (ofNat 0) (ofNat count)
  { rows := rows
    bytes := rows * input.rowBytes
    columns := input.columns.mapValues fun c =>
      { c with distinct := min c.distinct (max rows (ofNat 1)) } }

end Statistics

end QueryPlanner
