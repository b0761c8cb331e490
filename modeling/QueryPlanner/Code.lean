/-
# Generated code

A plan is turned into a fragment: a pipeline that is pulled from, a block of generated
statements, or an access to a foreign source.

A block has a hole where the code that consumes its rows goes, and an expression for
the current row at the hole. A consumer never changes a block; it fills the hole, often
with statements that have a hole of their own.
-/
import QueryPlanner.Operator

namespace QueryPlanner

/-- A variable of generated code. -/
structure Var where
  number : Nat
  deriving DecidableEq, Repr, Inhabited

/-- An expression of generated code. -/
inductive CodeExpr where
  | var (v : Var)
  /-- A value of a row, by position. -/
  | field (row : CodeExpr) (index : Nat)
  /-- A value of a record, by position, and the name the record has for it. -/
  | recordField (record : CodeExpr) (index : Nat) (name : String)
  | literal (value : Scalar)
  | binary (op : BinaryOp) (left right : CodeExpr)
  | unary (op : UnaryOp) (operand : CodeExpr)
  | and (operands : List CodeExpr)
  | or (operands : List CodeExpr)
  | call (name : String) (args : List CodeExpr)
  /-- A row of the given values. -/
  | makeRow (values : List CodeExpr)
  /-- A row seen as a record with these names. -/
  | toRecord (row : CodeExpr) (names : List String)
  /-- The values of a record with these names. -/
  | toRow (record : CodeExpr) (names : List String)
  /-- One row after another. -/
  | concat (left right : CodeExpr)
  /-- Whether a cursor has a row left. -/
  | hasNext (cursor : Var)
  /-- The next row of a cursor. -/
  | next (cursor : Var)
  deriving Inhabited

mutual

/-- A pipeline that rows are pulled from. -/
inductive Pipeline where
  | values (rows : List Row)
  | scan (table : TableName)
  /-- The rows of a table that a foreign source owns. -/
  | fetch (table : TableName)
  | filter (input : Pipeline) (predicate : Expr)
  | project (input : Pipeline) (exprs : List Expr)
  /-- Pairs of rows; `rightWidth` missing values pad a row of an outer join. -/
  | join (left right : Pipeline) (type : JoinType) (condition : Expr) (rightWidth : Nat)
  | sort (input : Pipeline) (order : List SortKey)
  | limit (input : Pipeline) (offset count : Nat)
  /-- The rows that a program emits. -/
  | materialize (program : List Statement)

/-- A statement of generated code. -/
inductive Statement where
  | assign (var : Var) (value : CodeExpr)
  /-- Starts pulling from a pipeline. -/
  | openCursor (cursor : Var) (source : Pipeline)
  | whileDo (condition : CodeExpr) (body : List Statement)
  | ifThen (condition : CodeExpr) (body : List Statement)
  /-- Where the code that consumes the current row goes. -/
  | hole
  /-- Hands a row to whoever runs the program. -/
  | emit (row : CodeExpr)

end

instance : Inhabited Pipeline := ⟨.values []⟩

instance : Inhabited Statement := ⟨.hole⟩

/-- Statements with a hole, and the current row at the hole. -/
structure CodeBlock where
  statements : List Statement
  row : CodeExpr
  deriving Inhabited

/-- What a plan, or a part of one, is turned into. -/
inductive Fragment where
  | iterator (pipeline : Pipeline)
  | code (block : CodeBlock)
  /-- A table that a foreign source owns. -/
  | remote (table : TableName) (rowType : RowType)
  deriving Inhabited

/-- The name of a kind of fragment. -/
def Fragment.kindName : Fragment → String
  | iterator _ => "iterator"
  | code _ => "code"
  | remote _ _ => "remote"

/-- What can be run. -/
inductive Executable where
  | pipeline (pipeline : Pipeline)
  | program (statements : List Statement)
  deriving Inhabited

/-! ## Holes -/

mutual

/-- A statement with the body that is left in the place of its first hole, and what is left after
that; a hole stays if nothing is left. Holes of the body are not looked for. -/
def Statement.splice : Statement → Option (List Statement) →
    List Statement × Option (List Statement)
  | .hole, some body => (body, none)
  | .hole, none => ([.hole], none)
  | .whileDo condition inner, left =>
      let (inner, left) := spliceInto inner left
      ([.whileDo condition inner], left)
  | .ifThen condition inner, left =>
      let (inner, left) := spliceInto inner left
      ([.ifThen condition inner], left)
  | s, left => ([s], left)

/-- Statements one after another, each with the body that the ones before it left. -/
def spliceInto : List Statement → Option (List Statement) →
    List Statement × Option (List Statement)
  | [], left => ([], left)
  | s :: rest, left =>
      let (spliced, left) := s.splice left
      let (rest, left) := spliceInto rest left
      (spliced ++ rest, left)

end

mutual

/-- The number of holes of a statement; programs inside pipelines do not count. -/
def Statement.holes : Statement → Nat
  | .hole => 1
  | .whileDo _ inner => holesOf inner
  | .ifThen _ inner => holesOf inner
  | _ => 0

/-- The number of holes of some statements. -/
def holesOf : List Statement → Nat
  | [] => 0
  | s :: rest => s.holes + holesOf rest

end

/-- The holes of two runs of statements add up. -/
theorem holesOf_append (before after : List Statement) :
    holesOf (before ++ after) = holesOf before + holesOf after := by
  induction before with
  | nil => simp [holesOf]
  | cons s rest ih =>
      rw [List.cons_append, holesOf, holesOf, ih]
      omega

namespace CodeBlock

/-- The statements with the first hole filled by `body`. -/
def splice (block : CodeBlock) (body : List Statement) : List Statement :=
  (spliceInto block.statements (some body)).1

/-- The block whose hole is that of `body`, with `row` as the current row there. -/
def extend (block : CodeBlock) (body : List Statement) (row : CodeExpr) : CodeBlock :=
  ⟨block.splice body, row⟩

/-- The same statements with another expression for the current row. -/
def withRow (block : CodeBlock) (row : CodeExpr) : CodeBlock := { block with row := row }

/-- The program that emits the current row at the hole. -/
def close (block : CodeBlock) : List Statement := block.splice [.emit block.row]

end CodeBlock

end QueryPlanner
