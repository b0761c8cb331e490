/-
# Scalar values

The constants of a query: the missing value, truth values, 64-bit integers, floats,
texts and dates counted in days.

Two scalars are *alike* when they have the same canonical form: floats are compared by
value, so that the two zeros are alike, and the not-a-number is alike to itself.
-/
import QueryPlanner.Decimal.Style
import QueryPlanner.Double
import QueryPlanner.Text.Quoted

namespace QueryPlanner

/-- A constant. -/
inductive Scalar where
  | null
  | bool (value : Bool)
  | int (value : Int64)
  | float (value : Double)
  | text (value : String)
  /-- Days since the first of January 1970. -/
  | date (value : Int32)
  deriving DecidableEq, Inhabited

/-- The values of one row, by position. -/
abbrev Row : Type := List Scalar

namespace Scalar

/-- Whether this is the missing value. -/
def isNull : Scalar → Bool
  | null => true
  | _ => false

/-- Whether this is the truth value TRUE, which is what a filter asks for. -/
def isTrue : Scalar → Bool
  | bool true => true
  | _ => false

/-- Whether this is a not-a-number with a negative sign. -/
def isNegativeNaN : Scalar → Bool
  | float x => x.isNaN && x.isNegative
  | _ => false

/-! ## Likeness -/

/-- The representative of the scalars alike to this one. -/
def canonical : Scalar → Scalar
  | float x => float x.canonical
  | other => other

/-- A representative represents itself. -/
theorem canonical_canonical (v : Scalar) : v.canonical.canonical = v.canonical := by
  cases v <;> simp [canonical, Double.canonical_canonical]

/-- Only the missing value is represented by the missing value. -/
theorem isNull_canonical (v : Scalar) : v.canonical.isNull = v.isNull := by
  cases v <;> rfl

/-- Whether two scalars are alike. -/
def alike (a b : Scalar) : Bool := decide (a.canonical = b.canonical)

/-- Every scalar is alike to itself. -/
theorem alike_refl (v : Scalar) : v.alike v = true := by
  simp [alike]

/-- Every scalar is alike to its representative. -/
theorem alike_canonical (v : Scalar) : v.alike v.canonical = true := by
  simp [alike, canonical_canonical]

/-! ## Text -/

/-- A scalar as it is written in an expression. -/
def display : Scalar → String
  | null => "NULL"
  | bool b => toString b
  | int n => toString n.toInt
  | float x => Decimal.plain.render x.toFloat
  | text s => "'" ++ s ++ "'"
  | date d => "DATE(" ++ toString d.toInt ++ ")"

/-- A scalar together with the name of its kind. -/
def describe : Scalar → String
  | null => "Null"
  | bool b => "Bool(" ++ toString b ++ ")"
  | int n => "Int64(" ++ toString n.toInt ++ ")"
  | float x => "Float64(" ++ Decimal.tagged.render x.toFloat ++ ")"
  | text s => "Utf8(" ++ Text.quoted s ++ ")"
  | date d => "Date(" ++ toString d.toInt ++ ")"

end Scalar

end QueryPlanner
