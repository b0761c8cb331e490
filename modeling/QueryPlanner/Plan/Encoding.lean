/-
# Plans as JSON

How scalars, expressions, operators and plans are written as JSON. A variant is an
object with one member named for it; one without a payload is its bare name.
-/
import QueryPlanner.Json
import QueryPlanner.Plan

namespace QueryPlanner

namespace Json

/-- A variant with its payload. -/
def variant (name : String) (payload : Json) : Json := object [(name, payload)]

/-- A list of texts. -/
def texts (items : List String) : Json := array (items.map text)

/-- A number of something. -/
def nat (n : Nat) : Json := int n

end Json

open Json (variant texts nat)

/-- A scalar as JSON. -/
def Scalar.toJson : Scalar → Json
  | null => .text "Null"
  | bool b => variant "Bool" (.bool b)
  | int n => variant "Int64" (.int n.toInt)
  | float x => variant "Float64" (.float x.toFloat)
  | text s => variant "Utf8" (.text s)
  | date d => variant "Date" (.int d.toInt)

/-- Rows as JSON. -/
def rowsToJson (rows : List Row) : Json :=
  .array (rows.map fun row => .array (row.map Scalar.toJson))

/-- A column reference as JSON. -/
def Column.toJson (c : Column) : Json :=
  .object [("table", c.table.elim .null .text), ("name", .text c.name), ("index", nat c.index)]

mutual

/-- An expression as JSON. -/
def Expr.toJson : Expr → Json
  | .column c => variant "Column" c.toJson
  | .literal v => variant "Literal" v.toJson
  | .binary op l r =>
      variant "BinaryOp" (.object [("op", .text op.name), ("left", l.toJson), ("right", r.toJson)])
  | .unary op e => variant "UnaryOp" (.object [("op", .text op.name), ("operand", e.toJson)])
  | .call name args =>
      variant "Function" (.object [("name", .text name), ("args", .array (Expr.toJsonList args))])
  | .and es => variant "And" (.array (Expr.toJsonList es))
  | .or es => variant "Or" (.array (Expr.toJsonList es))

/-- `toJson` for every expression of a list. -/
def Expr.toJsonList : List Expr → List Json
  | [] => []
  | e :: es => e.toJson :: Expr.toJsonList es

end

/-- A sort key as JSON. -/
def SortKey.toJson (k : SortKey) : Json :=
  .object [("expr", k.expr.toJson), ("ascending", .bool k.ascending),
    ("nulls_first", .bool k.nullsFirst)]

/-- A column of a row type as JSON. -/
def Field.toJson (f : Field) : Json :=
  .object [("name", .text f.name), ("data_type", .text f.type.name), ("nullable", .bool f.nullable)]

/-- A row type as JSON. -/
def RowType.toJson (t : RowType) : Json := .object [("fields", .array (t.fields.map Field.toJson))]

/-- A table's name as JSON. -/
def TableName.toJson (t : TableName) : Json :=
  .object [("schema", .text t.schema), ("name", .text t.name)]

/-- An operator as JSON. -/
def Operator.toJson (op : Operator) : Json :=
  variant op.kind.name <| .object <| match op with
  | values t rows => [("row_type", t.toJson), ("rows", rowsToJson rows)]
  | scan table t => [("table", table.toJson), ("row_type", t.toJson)]
  | filter p => [("predicate", p.toJson)]
  | project exprs t => [("exprs", .array (exprs.map Expr.toJson)), ("row_type", t.toJson)]
  | join type c => [("join_type", .text type.name), ("condition", c.toJson)]
  | sort order => [("order", .array (order.map SortKey.toJson))]
  | limit offset count => [("offset", nat offset), ("count", nat count)]
  | converter source => [("from", .text source.name)]

/-- A cost as JSON. -/
def costToJson (cost : Float) : Json := .object [("total", .float cost)]

mutual

/-- A node of a plan as JSON. -/
def PlanNode.toJson : PlanNode Float → Json
  | .node id op convention rowType cost rows children =>
      .object [("id", nat id), ("op", op.toJson), ("convention", .text convention.name),
        ("row_type", rowType.toJson), ("cost", costToJson cost), ("rows", .float rows),
        ("children", .array (PlanNode.toJsonList children))]

/-- `toJson` for several nodes. -/
def PlanNode.toJsonList : List (PlanNode Float) → List Json
  | [] => []
  | n :: rest => n.toJson :: PlanNode.toJsonList rest

end

/-- A plan as JSON. -/
def Plan.toJson (plan : Plan Float) : Json :=
  .object [("root", plan.root.toJson), ("cost", costToJson plan.cost),
    ("truncated", .bool plan.truncated)]

end QueryPlanner
