/-
# Expressions as code

An expression over a row becomes code that reads the columns from a variable, which
holds either a row or a record.
-/
import QueryPlanner.Code

namespace QueryPlanner

namespace CodeExpr

mutual

/-- An expression as code, with `column` for its columns. -/
def lower (column : Column → CodeExpr) : Expr → CodeExpr
  | .column c => column c
  | .literal v => .literal v
  | .binary op l r => .binary op (lower column l) (lower column r)
  | .unary op e => .unary op (lower column e)
  | .call name args => .call name (lowerList column args)
  | .and es => .and (lowerList column es)
  | .or es => .or (lowerList column es)

/-- `lower` for every expression of a list. -/
def lowerList (column : Column → CodeExpr) : List Expr → List CodeExpr
  | [] => []
  | e :: es => lower column e :: lowerList column es

end

/-- A list of expressions is lowered by lowering each of them. -/
theorem lowerList_eq (column : Column → CodeExpr) (es : List Expr) :
    lowerList column es = es.map (lower column) := by
  induction es with
  | nil => rfl
  | cons e es ih => simp [lowerList, ih]

/-- An expression as code over the row in a variable. -/
def lowerPositional (e : Expr) (row : Var) : CodeExpr := lower (fun c => .field (.var row) c.index) e

/-- An expression as code over the record in a variable. The record's own name for a
column is used where there is one. -/
def lowerNamed (e : Expr) (record : Var) (t : RowType) : CodeExpr :=
  lower (fun c => .recordField (.var record) c.index ((t.fields[c.index]?.map Field.name).getD c.name)) e

end CodeExpr

end QueryPlanner
