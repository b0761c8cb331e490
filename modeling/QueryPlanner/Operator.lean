/-
# Relational operators

Operators carry no inputs; the memo and the plan keep those beside them. Whether an
operator is logical or physical is a matter of the convention it is used in.

* `deriveRowType_length` : a row type is only derived from as many inputs as the
  operator takes.
-/
import QueryPlanner.Convention
import QueryPlanner.Expr
import QueryPlanner.RowType

namespace QueryPlanner

/-- A table, by its schema and its own name. -/
structure TableName where
  schema : String
  name : String
  deriving DecidableEq, Repr, Inhabited

/-- The qualified name of a table. -/
def TableName.display (t : TableName) : String := t.schema ++ "." ++ t.name

/-- Which rows of the left input a join keeps. -/
inductive JoinType where
  /-- Those that match some row of the right input. -/
  | inner
  /-- All; one without a match is padded with missing values. -/
  | left
  deriving DecidableEq, Repr, Inhabited

/-- The name of a join type. -/
def JoinType.name : JoinType → String
  | inner => "Inner"
  | left => "Left"

/-- A relational operator. -/
inductive Operator where
  /-- The rows given here. -/
  | values (rowType : RowType) (rows : List Row)
  /-- The rows of a table. -/
  | scan (table : TableName) (rowType : RowType)
  /-- The rows for which the predicate is TRUE. -/
  | filter (predicate : Expr)
  /-- One row of computed values for each row. -/
  | project (exprs : List Expr) (rowType : RowType)
  /-- Pairs of rows for which the condition over both is TRUE. -/
  | join (type : JoinType) (condition : Expr)
  /-- The rows in order. -/
  | sort (order : List SortKey)
  /-- At most `count` rows after the first `offset`. -/
  | limit (offset count : Nat)
  /-- The same rows, taken over from another convention. -/
  | converter (source : Convention)
  deriving DecidableEq, Inhabited

/-- An operator without its payload. -/
inductive OperatorKind where
  | values | scan | filter | project | join | sort | limit | converter
  deriving DecidableEq, Repr, Inhabited

namespace OperatorKind

/-- The name of a kind of operator. -/
def name : OperatorKind → String
  | values => "Values"
  | scan => "Scan"
  | filter => "Filter"
  | project => "Project"
  | join => "Join"
  | sort => "Sort"
  | limit => "Limit"
  | converter => "Converter"

/-- The number of inputs an operator of this kind takes. -/
def arity : OperatorKind → Nat
  | values => 0
  | scan => 0
  | join => 2
  | _ => 1

/-- All kinds of operators. -/
def all : List OperatorKind := [values, scan, filter, project, join, sort, limit, converter]

end OperatorKind

/-- An operator was given a number of inputs it does not take. -/
structure ArityMismatch where
  kind : OperatorKind
  expected : Nat
  actual : Nat
  deriving DecidableEq, Repr, Inhabited

namespace Operator

/-- The kind of an operator. -/
def kind : Operator → OperatorKind
  | values .. => .values
  | scan .. => .scan
  | filter .. => .filter
  | project .. => .project
  | join .. => .join
  | sort .. => .sort
  | limit .. => .limit
  | converter .. => .converter

/-- The number of inputs an operator takes. -/
def arity (op : Operator) : Nat := op.kind.arity

/-- The row type of an operator's output, from those of its inputs. -/
def deriveRowType (op : Operator) (inputs : List RowType) : Except ArityMismatch RowType :=
  match op, inputs with
  | values t _, [] => .ok t
  | scan _ t, [] => .ok t
  | project _ t, [_] => .ok t
  | join type _, [l, r] => .ok (l.join r (type == .left))
  | filter _, [t] => .ok t
  | sort _, [t] => .ok t
  | limit _ _, [t] => .ok t
  | converter _, [t] => .ok t
  | op, inputs => .error ⟨op.kind, op.arity, inputs.length⟩

/-- The operator with every literal in its canonical form. -/
def canonical : Operator → Operator
  | values t rows => values t (rows.map fun row => row.map Scalar.canonical)
  | scan table t => scan table t
  | filter p => filter p.canonical
  | project exprs t => project (exprs.map Expr.canonical) t
  | join type c => join type c.canonical
  | sort order => sort (order.map SortKey.canonical)
  | limit offset count => limit offset count
  | converter source => converter source

/-- The canonical form of an operator is of the same kind. -/
theorem kind_canonical (op : Operator) : op.canonical.kind = op.kind := by
  cases op <;> rfl

/-- The canonical form of an operator takes as many inputs. -/
theorem arity_canonical (op : Operator) : op.canonical.arity = op.arity := by
  unfold arity
  rw [kind_canonical]

/-- Whether two operators are the same up to likeness of their literals. -/
def alike (a b : Operator) : Bool := decide (a.canonical = b.canonical)

/-- An operator as text. -/
def display : Operator → String
  | values _ rows => "Values[" ++ toString rows.length ++ " rows]"
  | scan table _ => "Scan[" ++ table.display ++ "]"
  | filter p => "Filter[" ++ p.display ++ "]"
  | project exprs t =>
      let columns := (exprs.zip t.fields).map fun (e, f) => f.name ++ " := " ++ e.display
      "Project[" ++ ", ".intercalate columns ++ "]"
  | join type c => "Join[" ++ type.name ++ ", " ++ c.display ++ "]"
  | sort order =>
      let keys := order.map fun k => k.expr.display ++ (if k.ascending then " ASC" else " DESC")
      "Sort[" ++ ", ".intercalate keys ++ "]"
  | limit offset count => "Limit[" ++ toString offset ++ ", " ++ toString count ++ "]"
  | converter source => "Converter[from " ++ source.name ++ "]"

/-- A row type is only derived from as many inputs as the operator takes. -/
theorem deriveRowType_length {op : Operator} {inputs : List RowType} {t : RowType}
    (h : op.deriveRowType inputs = .ok t) : inputs.length = op.arity := by
  unfold deriveRowType at h
  split at h <;> first | rfl | cases h

/-- The canonical form of an operator derives the same row types. -/
theorem deriveRowType_canonical (op : Operator) (inputs : List RowType) :
    op.canonical.deriveRowType inputs = op.deriveRowType inputs := by
  cases op <;> rcases inputs with _ | ⟨_, _ | ⟨_, _ | _⟩⟩ <;> rfl

end Operator

end QueryPlanner
