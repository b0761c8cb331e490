/-
# Runtime values and what can go wrong

Generated code computes with scalars, rows and records. Running it, or evaluating an
expression, fails for one of the causes listed here.
-/
import QueryPlanner.Code.Generation
import QueryPlanner.Code.Printer

namespace QueryPlanner

/-- A value of generated code. -/
inductive Value where
  | scalar (value : Scalar)
  | row (values : Row)
  | record (fields : List (String × Scalar))
  deriving DecidableEq, Inhabited

namespace Value

/-- A value together with the name of its kind. -/
def describe : Value → String
  | scalar v => "Scalar(" ++ v.describe ++ ")"
  | row vs => "Row(" ++ listed "[" (vs.map Scalar.describe) "]" ++ ")"
  | record fields =>
      let pairs := fields.map fun (name, v) => "(" ++ Text.quoted name ++ ", " ++ v.describe ++ ")"
      "Record(" ++ listed "[" pairs "]" ++ ")"

/-- The row that a program emits for a value. -/
def toRow : Value → Row
  | scalar v => [v]
  | row vs => vs
  | record fields => fields.map Prod.snd

/-- Whether a value is TRUE. -/
def isTrue : Value → Bool
  | scalar v => v.isTrue
  | _ => false

end Value

/-- A value was not of the type that some use of it asks for. -/
inductive TypeMismatch where
  /-- An operation does not apply to these operands. -/
  | operands (operation : String) (values : List Scalar)
  | notAValue (v : Var)
  | notACursor (v : Var)
  | notAScalar (value : Value)
  /-- A position was asked of something that is no row. -/
  | notARow (value : Value)
  /-- A field was asked of something that is no record. -/
  | notARecord (field : String) (value : Value)
  /-- Something cannot be seen as a record of the given names. -/
  | noRecordView (value : Value)
  /-- Something cannot be flattened into a row. -/
  | noRowView (value : Value)
  | notRows (left right : Value)
  deriving DecidableEq, Inhabited

/-- A type mismatch in words. -/
def TypeMismatch.message : TypeMismatch → String
  | operands operation values =>
      operation ++ " on " ++ ", ".intercalate (values.map Scalar.display)
  | notAValue v => v.display ++ " is a cursor"
  | notACursor v => v.display ++ " is not a cursor"
  | notAScalar value => "expected a scalar, got " ++ value.describe
  | notARow value => "positional access into " ++ value.describe
  | notARecord field value => "field " ++ field ++ " of " ++ value.describe
  | noRecordView value => "cannot view " ++ value.describe ++ " as a record"
  | noRowView value => "cannot flatten " ++ value.describe
  | notRows left right => "concat of " ++ left.describe ++ " and " ++ right.describe

/-- Why running something fails. -/
inductive ExecutionError where
  /-- There was no code to run. -/
  | code (error : CodeError)
  | unknownTable (name : String)
  | unboundVariable (v : Var)
  | exhaustedCursor (v : Var)
  | columnOutOfRange (index width : Nat)
  | unknownField (name : String)
  | typeMismatch (mismatch : TypeMismatch)
  | divisionByZero
  | overflow
  | unknownFunction (name : String)
  /-- A program still has a hole. -/
  | unfilledHole
  /-- A loop came around without taking a row from any cursor, and so never ends. -/
  | endlessLoop
  /-- Rows cannot be sorted, since their order contradicts itself. This is the end of whatever runs
  them, and is not passed on. -/
  | contradictoryOrder
  deriving DecidableEq, Inhabited

/-- An error in words. -/
def ExecutionError.message : ExecutionError → String
  | code e => e.message
  | unknownTable name => "unknown table " ++ name
  | unboundVariable v => "variable " ++ v.display ++ " is not bound in this scope"
  | exhaustedCursor v => "cursor " ++ v.display ++ " has no more rows"
  | columnOutOfRange index width =>
      "column $" ++ toString index ++ " out of range for a row of width " ++ toString width
  | unknownField name => "record has no field " ++ name
  | typeMismatch mismatch => "type mismatch: " ++ mismatch.message
  | divisionByZero => "division by zero"
  | overflow => "integer overflow"
  | unknownFunction name => "unknown function " ++ name
  | unfilledHole => "program still contains an unfilled hole"
  | endlessLoop => "loop takes no row from any cursor"
  | contradictoryOrder =>
      "user-provided comparison function does not correctly implement a total order"

end QueryPlanner
