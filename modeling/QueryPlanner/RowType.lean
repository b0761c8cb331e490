/-
# Row types

The ordered, named and typed columns of a relation. Row types are settled when a
logical plan is built; afterwards they are only passed on and compared.
-/

namespace QueryPlanner

/-- The type of a column. -/
inductive DataType where
  | boolean
  | int64
  | float64
  | utf8
  | date
  deriving DecidableEq, Repr, Inhabited

namespace DataType

/-- The name of a type in a row type's text. -/
def display : DataType → String
  | boolean => "BOOLEAN"
  | int64 => "BIGINT"
  | float64 => "DOUBLE"
  | utf8 => "VARCHAR"
  | date => "DATE"

/-- The name of a type in requests and answers. -/
def name : DataType → String
  | boolean => "Boolean"
  | int64 => "Int64"
  | float64 => "Float64"
  | utf8 => "Utf8"
  | date => "Date"

/-- All types, in the order of their declaration. -/
def all : List DataType := [boolean, int64, float64, utf8, date]

/-- The type called `name`. -/
def ofName? (name : String) : Option DataType := all.find? (·.name = name)

end DataType

/-- A column of a row type. -/
structure Field where
  name : String
  type : DataType
  nullable : Bool := true
  deriving DecidableEq, Repr, Inhabited

/-- The columns of a relation. -/
structure RowType where
  fields : List Field
  deriving DecidableEq, Repr, Inhabited

namespace RowType

/-- The number of columns. -/
def width (t : RowType) : Nat := t.fields.length

/-- The names of the columns. -/
def names (t : RowType) : List String := t.fields.map Field.name

/-- The columns of `left` followed by those of `right`, which become nullable where
`optional`. -/
def join (left right : RowType) (optional : Bool) : RowType :=
  ⟨left.fields ++ right.fields.map fun f => { f with nullable := f.nullable || optional }⟩

/-- The columns with their types, in brackets. -/
def display (t : RowType) : String :=
  "(" ++ ", ".intercalate (t.fields.map fun f => f.name ++ " " ++ f.type.display) ++ ")"

/-- A join has the columns of both sides. -/
theorem width_join (left right : RowType) (optional : Bool) :
    (left.join right optional).width = left.width + right.width := by
  simp [join, width]

/-- A row type has as many names as columns. -/
theorem length_names (t : RowType) : t.names.length = t.width := by
  simp [names, width]

end RowType

end QueryPlanner
