/-
# Operations on scalars

Comparisons and arithmetic yield the missing value when an operand is missing.
Conjunction and disjunction are three-valued: they look at their operands from left to
right, stop at the first that decides, and fail at the first that is no truth value.
-/
import QueryPlanner.Execution.Value
import QueryPlanner.Text.LetterCase

namespace QueryPlanner

namespace Scalar

/-- The outcome of computing a scalar. -/
abbrev Outcome : Type := Except ExecutionError Scalar

/-- The complaint about the operands of an operation. -/
def mismatch {α : Type} (operation : String) (values : List Scalar) : Except ExecutionError α :=
  .error (.typeMismatch (.operands operation values))

/-! ## Order -/

/-- The order of floats by value; the not-a-number has no place in it. -/
def compareByValue (a b : Double) : Option Ordering :=
  if a.isNaN || b.isNaN then none else some (a.compare b)

/-- The float nearest to an integer. -/
def nearest (n : Int64) : Double := .ofFloat (Float.ofInt n.toInt)

/-- The order of two scalars of the same type, or of two numbers. -/
def compare : Scalar → Scalar → Option Ordering
  | int a, int b => some (Ord.compare a.toInt b.toInt)
  | float a, float b => some (a.compare b)
  | int a, float b => compareByValue (nearest a) b
  | float a, int b => compareByValue a (nearest b)
  | text a, text b => some (Ord.compare a b)
  | bool a, bool b => some (Ord.compare a.toNat b.toNat)
  | date a, date b => some (Ord.compare a.toInt b.toInt)
  | _, _ => none

/-! ## Arithmetic -/

/-- A 64-bit integer, if the number fits. -/
def ofInt? (n : Int) : Outcome :=
  if Int64.minValue.toInt ≤ n ∧ n ≤ Int64.maxValue.toInt then .ok (int (Int64.ofInt n))
  else .error .overflow

/-- A number as a float. -/
def toDouble? : Scalar → Option Double
  | int n => some (nearest n)
  | float x => some x
  | _ => none

/-- Arithmetic on integers, exact or not at all. Division drops the fraction. -/
def integerArithmetic (op : BinaryOp) (a b : Int64) : Outcome :=
  match op with
  | .add => ofInt? (a.toInt + b.toInt)
  | .sub => ofInt? (a.toInt - b.toInt)
  | .mul => ofInt? (a.toInt * b.toInt)
  | _ => if b = 0 then .error .divisionByZero else ofInt? (Int.tdiv a.toInt b.toInt)

/-- Arithmetic on floats. -/
def floatArithmetic (op : BinaryOp) (a b : Double) : Double :=
  .ofFloat <| match op with
    | .add => a.toFloat + b.toFloat
    | .sub => a.toFloat - b.toFloat
    | .mul => a.toFloat * b.toFloat
    | _ => a.toFloat / b.toFloat

/-- Arithmetic on two integers, or on two numbers as floats. -/
def arithmetic (op : BinaryOp) (left right : Scalar) : Outcome :=
  match left, right with
  | int a, int b => integerArithmetic op a b
  | _, _ =>
      match left.toDouble?, right.toDouble? with
      | some a, some b => .ok (float (floatArithmetic op a b))
      | _, _ => mismatch op.display [left, right]

/-- Whether a comparison holds for an order; arithmetic is no comparison. -/
def holds? : BinaryOp → Option (Ordering → Bool)
  | .eq => some (· == .eq)
  | .notEq => some (· != .eq)
  | .lt => some (· == .lt)
  | .ltEq => some (· != .gt)
  | .gt => some (· == .gt)
  | .gtEq => some (· != .lt)
  | _ => none

/-- A comparison, or arithmetic. -/
def binary (op : BinaryOp) (left right : Scalar) : Outcome :=
  if left.isNull || right.isNull then .ok null
  else
    match holds? op with
    | none => arithmetic op left right
    | some holds =>
        match compare left right with
        | some order => .ok (bool (holds order))
        | none => mismatch op.display [left, right]

/-- A negation, or a test for the missing value. -/
def unary (op : UnaryOp) (value : Scalar) : Outcome :=
  match op, value with
  | .isNull, v => .ok (bool v.isNull)
  | .isNotNull, v => .ok (bool !v.isNull)
  | _, null => .ok null
  | .not, bool b => .ok (bool !b)
  | .neg, int n => ofInt? (-n.toInt)
  | .neg, float x => .ok (float x.neg)
  | op, v => mismatch op.name [v]

/-! ## Three-valued logic -/

/-- The conjunction of outcomes, after the missing value was seen or not. -/
def allOf (missing : Bool) : List Outcome → Outcome
  | [] => .ok (if missing then null else bool true)
  | .error e :: _ => .error e
  | .ok (bool false) :: _ => .ok (bool false)
  | .ok (bool true) :: rest => allOf missing rest
  | .ok null :: rest => allOf true rest
  | .ok other :: _ => mismatch "AND" [other]

/-- The disjunction of outcomes, after the missing value was seen or not. -/
def anyOf (missing : Bool) : List Outcome → Outcome
  | [] => .ok (if missing then null else bool false)
  | .error e :: _ => .error e
  | .ok (bool true) :: _ => .ok (bool true)
  | .ok (bool false) :: rest => anyOf missing rest
  | .ok null :: rest => anyOf true rest
  | .ok other :: _ => mismatch "OR" [other]

/-- The conjunction of outcomes; TRUE for none. -/
def conjunction (outcomes : List Outcome) : Outcome := allOf false outcomes

/-- The disjunction of outcomes; FALSE for none. -/
def disjunction (outcomes : List Outcome) : Outcome := anyOf false outcomes

/-! ## Functions -/

/-- The functions that expressions may call. -/
inductive Function where
  | coalesce | upper | lower | length | abs
  deriving DecidableEq, Repr

/-- The function called `name`, whatever the case of its ASCII letters. -/
def Function.ofName? (name : String) : Option Function :=
  match name.toLower with
  | "coalesce" => some .coalesce
  | "upper" => some .upper
  | "lower" => some .lower
  | "length" => some .length
  | "abs" => some .abs
  | _ => none

/-- The value of a function other than `coalesce`, if it applies to the argument. -/
def Function.valueOn? : Function → Scalar → Option Outcome
  | .upper, text s => some (.ok (text (Text.upper s)))
  | .lower, text s => some (.ok (text (Text.lower s)))
  | .length, text s => some (ofInt? s.length)
  | .abs, int n => some (ofInt? n.toInt.natAbs)
  | .abs, float x => some (.ok (float x.abs))
  | _, _ => none

/-- A function call. Only `coalesce` looks at a missing value; every other function of
one missing argument is missing, known or not. -/
def call (name : String) (args : List Scalar) : Outcome :=
  match Function.ofName? name, args with
  | some .coalesce, args => .ok ((args.find? fun v => !v.isNull).getD null)
  | _, [null] => .ok null
  | some f, [v] => (f.valueOn? v).getD (mismatch name [v])
  | some _, args => mismatch name args
  | none, _ => .error (.unknownFunction name)

end Scalar

end QueryPlanner
