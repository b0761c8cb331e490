/-
# Running generated code

Pipelines and programs over the rows of tables. The rows of a pipeline are computed when
they are asked for, and each of them may turn out to be an error; sorting, and the right
side of a join, ask for all rows of their input at once.
-/
import QueryPlanner.Execution.Machine

namespace QueryPlanner

/-- Where the rows of tables come from. -/
structure RowSource where
  rows : TableName → Except ExecutionError (List Row)

/-- Rows by the qualified names of their tables. -/
def RowSource.ofTables (tables : Dictionary String (List Row)) : RowSource where
  rows table :=
    match tables.get? table.display with
    | some rows => .ok rows
    | none => .error (.unknownTable table.display)

/-! ## Pipelines and programs -/

mutual

/-- The rows of a pipeline, to be asked for. -/
def Pipeline.cursor (source : RowSource) : Pipeline → Except ExecutionError Cursor
  | .values rows => pure (.ofRows rows)
  | .scan table => do pure (.ofRows (← source.rows table))
  | .fetch table => do pure (.ofRows (← source.rows table))
  | .filter input p => do pure ((← input.cursor source).filter p)
  | .project input exprs => do pure ((← input.cursor source).project exprs)
  | .join left right type condition rightWidth => do
      let right ← (← right.cursor source).all
      pure ((← left.cursor source).join type condition rightWidth right)
  | .sort input order => do
      let rows ← (← input.cursor source).all
      pure (.ofRows (← SortKey.sortRows order rows))
  | .limit input offset count => do pure ((← input.cursor source).limit offset count)
  | .materialize program =>
      match (execAll source program).run.run {} with
      | (.ok (), machine) => pure (.ofRows machine.emitted.reverse)
      | (.error e, _) => throw e

/-- Runs a statement. -/
def Statement.exec (source : RowSource) : Statement → Machine.Run Unit
  | .assign v value => do Machine.bind v (.value (← Machine.eval value))
  | .openCursor cursor pipeline => do
      let rows ← (pipeline.cursor source : Except ExecutionError Cursor)
      Machine.bind cursor (.cursor rows)
  | .whileDo condition body =>
      Machine.loop do
        if (← Machine.eval condition).isTrue then
          Machine.inScope (execAll source body)
          pure true
        else pure false
  | .ifThen condition body => do
      if (← Machine.eval condition).isTrue then Machine.inScope (execAll source body)
  | .hole => throw .unfilledHole
  | .emit row => do Machine.emit (← Machine.eval row).toRow

/-- Runs statements one after another. -/
def execAll (source : RowSource) : List Statement → Machine.Run Unit
  | [] => pure ()
  | s :: rest => do
      s.exec source
      execAll source rest

end

/-- The rows that a program emits. -/
def runProgram (source : RowSource) (program : List Statement) : Except ExecutionError (List Row) :=
  match (execAll source program).run.run {} with
  | (.ok (), machine) => .ok machine.emitted.reverse
  | (.error e, _) => .error e

/-- All rows of an executable. -/
def Executable.run (source : RowSource) : Executable → Except ExecutionError (List Row)
  | pipeline p => do (← p.cursor source).all
  | program statements => runProgram source statements

end QueryPlanner
