/-
# Cursors

A cursor is what is left of a stream that was not asked for yet. It carries a bound on
the number of its rows, which is known without asking for any of them; `Cursor.length_le`
says that it is one.
-/
import QueryPlanner.Execution.RowStream

namespace QueryPlanner

/-- What is left of a stream that was not asked for yet, and a bound on its length. -/
structure Cursor where
  rows : Thunk RowStream
  bound : Nat
  length_le : rows.get.length ≤ bound

namespace Cursor

/-- All rows and errors that are left. -/
def toList (c : Cursor) : List (Except ExecutionError Row) := c.rows.get.toList

/-- The cursor of some rows. -/
def ofRows (rows : List Row) : Cursor where
  rows := Thunk.mk fun _ => .ofRows rows
  bound := rows.length
  length_le := by
    have h : (RowStream.ofRows rows).length = rows.length := by
      rw [← RowStream.length_toList, RowStream.toList_ofRows, List.length_map]
    exact Nat.le_of_eq h

instance : Inhabited Cursor := ⟨ofRows []⟩

/-- The rows for which a predicate is TRUE. -/
def filter (p : Expr) (c : Cursor) : Cursor where
  rows := Thunk.mk fun _ => c.rows.get.filter p
  bound := c.bound
  length_le := Nat.le_trans (RowStream.length_filter_le p c.rows.get) c.length_le

/-- One computed row for each row. -/
def project (exprs : List Expr) (c : Cursor) : Cursor where
  rows := Thunk.mk fun _ => c.rows.get.project exprs
  bound := c.bound
  length_le := by
    show (c.rows.get.project exprs).length ≤ c.bound
    rw [RowStream.length_project]
    exact c.length_le

/-- The rows that the left rows make with all right rows. -/
def join (type : JoinType) (condition : Expr) (rightWidth : Nat) (right : List Row)
    (c : Cursor) : Cursor where
  rows := Thunk.mk fun _ => c.rows.get.join type condition rightWidth right
  bound := c.bound * (right.length + 1)
  length_le := Nat.le_trans (RowStream.length_join_le type condition rightWidth right c.rows.get)
    (Nat.mul_le_mul_right _ c.length_le)

/-- At most `count` rows after the first `offset`. -/
def limit (offset count : Nat) (c : Cursor) : Cursor where
  rows := Thunk.mk fun _ => .take count fun _ => c.rows.get.drop offset
  bound := Nat.min count c.bound
  length_le := by
    show (RowStream.take count fun _ => c.rows.get.drop offset).length ≤ Nat.min count c.bound
    rw [RowStream.length_take, RowStream.length_drop]
    have hle := c.length_le
    exact Nat.le_min.mpr ⟨Nat.min_le_left _ _,
      Nat.le_trans (Nat.min_le_right _ _) (Nat.le_trans (Nat.sub_le _ _) hle)⟩

/-- All rows that are left, unless one of them is an error. -/
def all (c : Cursor) : Except ExecutionError (List Row) := c.rows.get.all

/-- The cursor of some rows has all of them left. -/
theorem all_ofRows (rows : List Row) : (ofRows rows).all = .ok rows :=
  RowStream.all_ofRows rows

/-- Whether no row is left. -/
def isDone (c : Cursor) : Bool :=
  match c.rows.get with
  | .done => true
  | .next _ _ => false

/-- The next row, if there is one, and what is left after it. -/
def next? (c : Cursor) : Option (Except ExecutionError Row × Cursor) :=
  match h : c.rows.get with
  | .done => none
  | .next row rest => some (row,
      { rows := Thunk.mk rest
        bound := c.bound - 1
        length_le := by
          have hle := c.length_le
          rw [h] at hle
          exact Nat.le_sub_one_of_lt hle })

end Cursor

end QueryPlanner
