/-
# Streams of rows

A stream is computed as far as someone asks for its rows, each of which may turn out to
be an error. `RowStream.toList` is the list of all of them, and says what the operations
on streams do:

* `toList_filter`, `toList_project`, `toList_join` : row by row;
* `toList_drop`, `toList_take` : those of a list;
* `all_ofRows` : a stream without errors is all of its rows.
-/
import QueryPlanner.Expr.Evaluation

namespace QueryPlanner

/-- Rows, all but the first of which wait to be asked for. -/
inductive RowStream where
  | done
  | next (row : Except ExecutionError Row) (rest : Unit → RowStream)

namespace RowStream

instance : Inhabited RowStream := ⟨done⟩

/-- All rows and errors of a stream. -/
def toList : RowStream → List (Except ExecutionError Row)
  | done => []
  | next row rest => row :: (rest ()).toList

/-- How many rows and errors a stream has. -/
def length : RowStream → Nat
  | done => 0
  | next _ rest => (rest ()).length + 1

/-- The length of a stream is that of its list. -/
theorem length_toList (s : RowStream) : s.toList.length = s.length := by
  induction s with
  | done => rfl
  | next row rest ih => simp [toList, length, ih]

/-- Puts rows before a stream. -/
def prepend : List (Except ExecutionError Row) → (Unit → RowStream) → RowStream
  | [], rest => rest ()
  | row :: rows, rest => next row fun _ => prepend rows rest

/-- The stream of some rows. -/
def ofRows : List Row → RowStream
  | [] => done
  | row :: rows => next (.ok row) fun _ => ofRows rows

/-- The rows of a stream behind `acc`, a reversed list, unless one of them is an error. -/
def allAfter : List Row → RowStream → Except ExecutionError (List Row)
  | acc, done => .ok acc.reverse
  | _, next (.error e) _ => .error e
  | acc, next (.ok row) rest => allAfter (row :: acc) (rest ())

/-- All rows of a stream, unless one of them is an error. -/
def all (s : RowStream) : Except ExecutionError (List Row) := allAfter [] s

/-! ## Operators -/

/-- The rows for which a predicate is TRUE. -/
def filter (p : Expr) : RowStream → RowStream
  | done => done
  | next (.error e) rest => next (.error e) fun _ => filter p (rest ())
  | next (.ok row) rest =>
      match p.eval row with
      | .error e => next (.error e) fun _ => filter p (rest ())
      | .ok v => if v.isTrue then next (.ok row) fun _ => filter p (rest ()) else filter p (rest ())

/-- The computed row for a row. -/
def projectRow (exprs : List Expr) (row : Row) : Except ExecutionError Row :=
  exprs.mapM fun e => e.eval row

/-- One computed row for each row. -/
def project (exprs : List Expr) : RowStream → RowStream
  | done => done
  | next row rest => next (row.bind (projectRow exprs)) fun _ => project exprs (rest ())

/-- The pairs of a left row with the right rows for which a condition is TRUE, behind
`acc`, a reversed list. -/
def matchesAfter (condition : Expr) (left : Row) :
    List Row → List Row → Except ExecutionError (List Row)
  | acc, [] => .ok acc.reverse
  | acc, right :: rest => do
      let v ← condition.eval (left ++ right)
      matchesAfter condition left (if v.isTrue then (left ++ right) :: acc else acc) rest

/-- The rows that a left row makes with all right rows. An error is all that is left of
them. -/
def joinRow (type : JoinType) (condition : Expr) (rightWidth : Nat) (right : List Row)
    (left : Row) : List (Except ExecutionError Row) :=
  match matchesAfter condition left [] right with
  | .error e => [.error e]
  | .ok matched =>
      if matched.isEmpty && type == .left then [.ok (left ++ List.replicate rightWidth .null)]
      else matched.map .ok

/-- The rows that the left rows make with all right rows. -/
def join (type : JoinType) (condition : Expr) (rightWidth : Nat) (right : List Row) :
    RowStream → RowStream
  | done => done
  | next (.error e) rest => next (.error e) fun _ => join type condition rightWidth right (rest ())
  | next (.ok left) rest =>
      match joinRow type condition rightWidth right left with
      | [] => join type condition rightWidth right (rest ())
      | row :: rows =>
          next row fun _ => prepend rows fun _ => join type condition rightWidth right (rest ())

/-- The stream without its first `n` rows. -/
def drop : Nat → RowStream → RowStream
  | 0, s => s
  | _ + 1, done => done
  | n + 1, next _ rest => drop n (rest ())

/-- The first `n` rows of a stream, which is not asked for more. -/
def take : Nat → (Unit → RowStream) → RowStream
  | 0, _ => done
  | n + 1, s =>
      match s () with
      | done => done
      | next row rest => next row fun _ => take n rest

/-! ## What the operators do to the list -/

/-- Rows put before a stream are before its list. -/
theorem toList_prepend (rows : List (Except ExecutionError Row)) (rest : Unit → RowStream) :
    (prepend rows rest).toList = rows ++ (rest ()).toList := by
  induction rows with
  | nil => rfl
  | cons row rows ih => simp [prepend, toList, ih]

/-- The list of some rows is the rows. -/
theorem toList_ofRows (rows : List Row) : (ofRows rows).toList = rows.map .ok := by
  induction rows with
  | nil => rfl
  | cons row rows ih => simp [ofRows, toList, ih]

/-- Rows read behind others are behind them. -/
theorem allAfter_ofRows (acc rows : List Row) :
    allAfter acc (ofRows rows) = .ok (acc.reverse ++ rows) := by
  induction rows generalizing acc with
  | nil => simp [ofRows, allAfter]
  | cons row rows ih => simp [ofRows, allAfter, ih]

/-- A stream without errors is all of its rows. -/
theorem all_ofRows (rows : List Row) : (ofRows rows).all = .ok rows := by
  unfold all
  rw [allAfter_ofRows]
  rfl

/-- What a filter makes of one row or error. -/
def filterRow (p : Expr) (row : Except ExecutionError Row) : Option (Except ExecutionError Row) :=
  match row with
  | .error e => some (.error e)
  | .ok row =>
      match p.eval row with
      | .error e => some (.error e)
      | .ok v => if v.isTrue then some (.ok row) else none

/-- A filter looks at one row after another. -/
theorem toList_filter (p : Expr) (s : RowStream) :
    (s.filter p).toList = s.toList.filterMap (filterRow p) := by
  induction s with
  | done => rfl
  | next row rest ih =>
      cases row with
      | error e => simp [filter, toList, filterRow, ih]
      | ok row =>
          cases h : p.eval row with
          | error e => simp [filter, toList, filterRow, h, ih]
          | ok v =>
              by_cases ht : v.isTrue
              · simp [filter, toList, filterRow, h, ht, ih]
              · simp [filter, toList, filterRow, h, ht, ih]

/-- A projection computes one row after another. -/
theorem toList_project (exprs : List Expr) (s : RowStream) :
    (s.project exprs).toList = s.toList.map fun row => row.bind (projectRow exprs) := by
  induction s with
  | done => rfl
  | next row rest ih => simp [project, toList, ih]

/-- The rows that one left row or error makes. -/
def joinOne (type : JoinType) (condition : Expr) (rightWidth : Nat) (right : List Row)
    (left : Except ExecutionError Row) : List (Except ExecutionError Row) :=
  match left with
  | .error e => [.error e]
  | .ok left => joinRow type condition rightWidth right left

/-- A join goes through the left rows one after another. -/
theorem toList_join (type : JoinType) (condition : Expr) (rightWidth : Nat) (right : List Row)
    (s : RowStream) :
    (s.join type condition rightWidth right).toList =
      s.toList.flatMap (joinOne type condition rightWidth right) := by
  induction s with
  | done => rfl
  | next left rest ih =>
      cases left with
      | error e => simp [join, toList, joinOne, ih]
      | ok left =>
          cases h : joinRow type condition rightWidth right left with
          | nil => simp [join, toList, joinOne, h, ih]
          | cons row rows => simp [join, toList, toList_prepend, joinOne, h, ih]

/-- Dropping rows drops them from the list. -/
theorem toList_drop (n : Nat) (s : RowStream) : (s.drop n).toList = s.toList.drop n := by
  induction n generalizing s with
  | zero => rfl
  | succ n ih =>
      cases s with
      | done => rfl
      | next row rest => simp [drop, toList, ih]

/-- Taking rows takes them from the list. -/
theorem toList_take (n : Nat) (s : Unit → RowStream) :
    (take n s).toList = (s ()).toList.take n := by
  induction n generalizing s with
  | zero => rfl
  | succ n ih =>
      unfold take
      cases h : s () with
      | done => rfl
      | next row rest => simp [toList, ih]

/-! ## Lengths -/

/-- A filter adds no row. -/
theorem length_filter_le (p : Expr) (s : RowStream) : (s.filter p).length ≤ s.length := by
  rw [← length_toList, ← length_toList, toList_filter]
  exact List.length_filterMap_le _ _

/-- A projection keeps the number of rows. -/
theorem length_project (exprs : List Expr) (s : RowStream) :
    (s.project exprs).length = s.length := by
  rw [← length_toList, ← length_toList, toList_project, List.length_map]

/-- A left row matches no more rows than there are. -/
theorem length_matchesAfter_le (condition : Expr) (left : Row) (acc right matched : List Row)
    (h : matchesAfter condition left acc right = .ok matched) :
    matched.length ≤ acc.length + right.length := by
  induction right generalizing acc with
  | nil =>
      unfold matchesAfter at h
      cases h
      simp
  | cons row rest ih =>
      unfold matchesAfter at h
      cases hv : condition.eval (left ++ row) with
      | error e =>
          rw [hv] at h
          cases h
      | ok v =>
          rw [hv] at h
          have hle := ih _ h
          rw [List.length_cons]
          split at hle
          · rw [List.length_cons] at hle
            omega
          · omega

/-- A left row makes no more rows than there are right rows, or one. -/
theorem length_joinRow_le (type : JoinType) (condition : Expr) (rightWidth : Nat)
    (right : List Row) (left : Row) :
    (joinRow type condition rightWidth right left).length ≤ right.length + 1 := by
  unfold joinRow
  cases h : matchesAfter condition left [] right with
  | error e => simp
  | ok matched =>
      have hle := length_matchesAfter_le condition left [] right matched h
      rw [List.length_nil] at hle
      dsimp only
      split
      · simp
      · rw [List.length_map]
        omega

/-- A join has no more rows than pairs, with one more for each left row. -/
theorem length_join_le (type : JoinType) (condition : Expr) (rightWidth : Nat)
    (right : List Row) (s : RowStream) :
    (s.join type condition rightWidth right).length ≤ s.length * (right.length + 1) := by
  rw [← length_toList, ← length_toList, toList_join]
  induction s.toList with
  | nil => simp
  | cons left rest ih =>
      rw [List.flatMap_cons, List.length_append, List.length_cons, Nat.succ_mul]
      have hone : (joinOne type condition rightWidth right left).length ≤ right.length + 1 := by
        cases left with
        | error e => simp [joinOne]
        | ok left => exact length_joinRow_le type condition rightWidth right left
      omega

/-- Dropping rows leaves the others. -/
theorem length_drop (n : Nat) (s : RowStream) : (s.drop n).length = s.length - n := by
  rw [← length_toList, ← length_toList, toList_drop, List.length_drop]

/-- No more rows are taken than there are and than asked for. -/
theorem length_take (n : Nat) (s : Unit → RowStream) :
    (take n s).length = Nat.min n (s ()).length := by
  rw [← length_toList, ← length_toList, toList_take, List.length_take]

end RowStream

end QueryPlanner
