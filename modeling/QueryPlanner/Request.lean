/-
# Requests

A client sends a logical plan together with the tables that it reads. Columns are
addressed by position in the row type of the input; constants are JSON values.
-/
import QueryPlanner.Json
import QueryPlanner.Operator

namespace QueryPlanner

namespace Request

/-- An expression of a request. -/
inductive Term where
  | column (index : Nat)
  | literal (value : Json)
  | binary (op : String) (left right : Term)
  | unary (op : String) (operand : Term)
  | call (name : String) (args : List Term)
  | and (args : List Term)
  | or (args : List Term)
  deriving Inhabited

/-- A column that a projection computes. -/
structure NamedTerm where
  name : String
  type : DataType
  term : Term
  deriving Inhabited

/-- A key that a sort goes by. -/
structure SortTerm where
  term : Term
  ascending : Bool
  nullsFirst : Bool
  deriving Inhabited

/-- A relation of a request. -/
inductive Relation where
  | values (columns : List Field) (rows : List (List Json))
  | scan (schema table : String)
  | filter (predicate : Term) (input : Relation)
  | project (exprs : List NamedTerm) (input : Relation)
  | join (type : JoinType) (condition : Term) (left right : Relation)
  | sort (keys : List SortTerm) (input : Relation)
  | limit (offset count : Nat) (input : Relation)
  deriving Inhabited

/-- A table of a request. -/
structure Table where
  schema : String
  name : String
  columns : List Field
  /-- The number of rows to estimate with; that of the given rows where it is absent. -/
  rowCount : Option Float
  /-- Whether a foreign source owns the table. -/
  federated : Bool
  rows : List (List Json)
  deriving Inhabited

end Request

/-- A logical plan, the convention it is to be delivered in, and the tables it reads. -/
structure Request where
  plan : Request.Relation
  convention : String
  /-- A plan that costs no more than this is good enough. -/
  ceiling : Option Float
  tables : List Request.Table
  deriving Inhabited

end QueryPlanner
