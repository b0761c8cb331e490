/-
# The machine that runs generated code

A machine holds the variables of nested scopes, innermost first, and the rows emitted
so far. A variable holds a value or a cursor on the rows of a pipeline, each of which
may turn out to be an error when it is taken.

Expressions change nothing but the cursors they take rows from.
-/
import QueryPlanner.Dictionary
import QueryPlanner.Execution.Cursor

namespace QueryPlanner

/-- What a variable holds. -/
inductive Slot where
  | value (v : Value)
  | cursor (rest : Cursor)
  deriving Inhabited

/-- The variables bound in one scope. -/
abbrev Scope : Type := Dictionary Var Slot

/-- The state of a running program. -/
structure Machine where
  /-- The scopes, innermost first. -/
  scopes : List Scope := [[]]
  /-- The emitted rows, latest first. -/
  emitted : List Row := []
  deriving Inhabited

namespace Machine

/-- A step that can fail; the state it leaves is known in any case. -/
abbrev Run (α : Type) : Type := ExceptT ExecutionError (StateM Machine) α

/-- What a variable holds in the innermost scope that binds it. -/
def lookup : List Scope → Var → Option Slot
  | [], _ => none
  | scope :: rest, v =>
      match scope.get? v with
      | some slot => some slot
      | none => lookup rest v

/-- Replaces what a variable holds in the innermost scope that binds it. -/
def replace : List Scope → Var → Slot → List Scope
  | [], _, _ => []
  | scope :: rest, v, slot =>
      if scope.contains v then scope.insert v slot :: rest else scope :: replace rest v slot

/-- A bound on how many rows a scope's cursors have left. -/
def scopeRows : Scope → Nat
  | [] => 0
  | (_, .value _) :: rest => scopeRows rest
  | (_, .cursor c) :: rest => c.bound + scopeRows rest

/-- A bound on how many rows all cursors have left. -/
def rowsLeft (m : Machine) : Nat := m.scopes.foldr (fun scope rows => scopeRows scope + rows) 0

/-! ## Variables -/

/-- Binds a variable in the innermost scope. -/
def bind (v : Var) (slot : Slot) : Run Unit :=
  modify fun m =>
    match m.scopes with
    | [] => m
    | scope :: rest => { m with scopes := scope.insert v slot :: rest }

/-- The value of a variable. -/
def valueOf (v : Var) : Run Value := do
  match lookup (← get).scopes v with
  | some (.value value) => pure value
  | some (.cursor _) => throw (.typeMismatch (.notAValue v))
  | none => throw (.unboundVariable v)

/-- What is left of a cursor. -/
def cursorOf (v : Var) : Run Cursor := do
  match lookup (← get).scopes v with
  | some (.cursor rest) => pure rest
  | some (.value _) => throw (.typeMismatch (.notACursor v))
  | none => throw (.unboundVariable v)

/-- Takes the next row of a cursor. -/
def take (v : Var) : Run Row := do
  match (← cursorOf v).next? with
  | none => throw (.exhaustedCursor v)
  | some (row, rest) =>
      modify fun m => { m with scopes := replace m.scopes v (.cursor rest) }
      match row with
      | .ok row => pure row
      | .error e => throw e

/-- Emits a row. -/
def emit (row : Row) : Run Unit := modify fun m => { m with emitted := row :: m.emitted }

/-- Runs something in a scope of its own, which is gone afterwards in any case. -/
def inScope (body : Run Unit) : Run Unit :=
  ExceptT.mk fun (m : Machine) =>
    let (result, m) := body.run.run { m with scopes := [] :: m.scopes }
    (result, { m with scopes := m.scopes.tail })

/-! ## Loops -/

/-- Repeats a step while it answers that it is to be repeated. -/
def repeatWhile (step : Run Bool) : Nat → Run Unit
  | 0 => throw .endlessLoop
  | fuel + 1 => do if ← step then repeatWhile step fuel else pure ()

/-- Repeats a step that can only change cursors. A round that takes no row leaves
everything as it was and would come around forever, so a loop that ends does so within
as many rounds as there are rows left, and one more. -/
def loop (step : Run Bool) : Run Unit := do repeatWhile step ((← get).rowsLeft + 1)

/-! ## Expressions -/

/-- A value as a scalar. -/
def asScalar : Value → Run Scalar
  | .scalar v => pure v
  | other => throw (.typeMismatch (.notAScalar other))

/-- A value of a row, by position. -/
def fieldOf (index : Nat) : Value → Run Scalar
  | .row vs =>
      match vs[index]? with
      | some v => pure v
      | none => throw (.columnOutOfRange index vs.length)
  | other => throw (.typeMismatch (.notARow other))

/-- A value of a record, by position; the record must call it by the given name. -/
def recordFieldOf (index : Nat) (name : String) : Value → Run Scalar
  | .record fields =>
      match fields[index]? with
      | some (n, v) => if n = name then pure v else throw (.unknownField name)
      | none => throw (.unknownField name)
  | other => throw (.typeMismatch (.notARecord name other))

/-- The values of a record's fields, which must have the given names. -/
def flatten : List (String × Scalar) → List String → Except ExecutionError Row
  | (n, v) :: fields, name :: names =>
      if n = name then do pure (v :: (← flatten fields names)) else throw (.unknownField name)
  | _, _ => pure []

/-- A row as a record with the given names. -/
def recordView (names : List String) : Value → Run Value
  | .row vs =>
      if vs.length = names.length then pure (.record (names.zip vs))
      else throw (.typeMismatch (.noRecordView (.row vs)))
  | other => throw (.typeMismatch (.noRecordView other))

/-- A record with the given names as a row. -/
def rowView (names : List String) : Value → Run Value
  | .record fields =>
      if fields.length = names.length then do pure (.row (← flatten fields names))
      else throw (.typeMismatch (.noRowView (.record fields)))
  | other => throw (.typeMismatch (.noRowView other))

/-- One row after another. -/
def concat : Value → Value → Run Value
  | .row l, .row r => pure (.row (l ++ r))
  | l, r => throw (.typeMismatch (.notRows l r))

mutual

/-- The value of an expression of generated code. -/
def eval : CodeExpr → Run Value
  | .var v => valueOf v
  | .literal v => pure (.scalar v)
  | .field row index => do pure (.scalar (← fieldOf index (← eval row)))
  | .recordField record index name => do
      pure (.scalar (← recordFieldOf index name (← eval record)))
  | .binary op l r => do
      let left ← asScalar (← eval l)
      let right ← asScalar (← eval r)
      pure (.scalar (← Scalar.binary op left right))
  | .unary op e => do pure (.scalar (← Scalar.unary op (← asScalar (← eval e))))
  | .and es => do pure (.scalar (← Scalar.conjunction ((← evalScalars es).map .ok)))
  | .or es => do pure (.scalar (← Scalar.disjunction ((← evalScalars es).map .ok)))
  | .call name args => do pure (.scalar (← Scalar.call name (← evalScalars args)))
  | .makeRow es => do pure (.row (← evalScalars es))
  | .toRecord row names => do recordView names (← eval row)
  | .toRow record names => do rowView names (← eval record)
  | .concat l r => do
      let left ← eval l
      let right ← eval r
      concat left right
  | .hasNext v => do pure (.scalar (.bool !(← cursorOf v).isDone))
  | .next v => do pure (.row (← take v))

/-- The values of several expressions, all of which must be scalars. -/
def evalScalars : List CodeExpr → Run (List Scalar)
  | [] => pure []
  | e :: es => do
      let v ← asScalar (← eval e)
      let vs ← evalScalars es
      pure (v :: vs)

end

end Machine

end QueryPlanner
