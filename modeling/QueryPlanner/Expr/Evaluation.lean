/-
# Evaluating expressions

The value of an expression on a row. Operands are evaluated from left to right, and
those of a conjunction or disjunction only as far as they are needed.
-/
import QueryPlanner.Execution.Operation
import QueryPlanner.Sorting

namespace QueryPlanner

namespace Expr

mutual

/-- The value of an expression on a row. -/
def eval (row : Row) : Expr → Scalar.Outcome
  | column c =>
      match row[c.index]? with
      | some v => .ok v
      | none => .error (.columnOutOfRange c.index row.length)
  | literal v => .ok v
  | binary op l r => do Scalar.binary op (← l.eval row) (← r.eval row)
  | unary op e => do Scalar.unary op (← e.eval row)
  | call name args => do Scalar.call name (← (evalList row args).mapM id)
  | and es => Scalar.conjunction (evalList row es)
  | or es => Scalar.disjunction (evalList row es)

/-- The values of several expressions on a row. -/
def evalList (row : Row) : List Expr → List Scalar.Outcome
  | [] => []
  | e :: es => e.eval row :: evalList row es

end

/-- The values of a list are those of its expressions. -/
theorem evalList_eq (row : Row) (es : List Expr) : evalList row es = es.map (eval row) := by
  induction es with
  | nil => rfl
  | cons e es ih => simp [evalList, ih]

end Expr

/-! ## Sorting -/

namespace SortKey

/-- The order of two evaluated keys. Missing values come first or last whatever the
direction, and values that cannot be compared count as equal. -/
def compareValues (key : SortKey) (a b : Scalar) : Ordering :=
  match a.isNull, b.isNull with
  | true, true => .eq
  | true, false => if key.nullsFirst then .lt else .gt
  | false, true => if key.nullsFirst then .gt else .lt
  | false, false =>
      let order := (a.compare b).getD .eq
      if key.ascending then order else order.swap

/-- The order of two rows by their evaluated keys, the first key first. -/
def compareKeys : List SortKey → List Scalar → List Scalar → Ordering
  | key :: keys, a :: as, b :: bs => (key.compareValues a b).then (compareKeys keys as bs)
  | _, _, _ => .eq

/-- Sorts rows beside their evaluated keys. Rows with equal keys stay in order. -/
def sortKeyed (order : List SortKey) (keyed : List (List Scalar × Row)) :
    Option (List (List Scalar × Row)) :=
  Sorting.sort (fun x y => (compareKeys order x.1 y.1).isLT) keyed

/-- Sorts rows by keys evaluated once for each row. Rows with equal keys stay in order. -/
def sortRows (order : List SortKey) (rows : List Row) : Except ExecutionError (List Row) := do
  let keyed ← rows.mapM fun row => do
    let key ← order.mapM fun k => k.expr.eval row
    pure (key, row)
  match sortKeyed order keyed with
  | some sorted => pure (sorted.map Prod.snd)
  | none => throw .contradictoryOrder

end SortKey

end QueryPlanner
