/-
# Code as text
-/
import QueryPlanner.Code

namespace QueryPlanner

/-- A variable as text. -/
def Var.display (v : Var) : String := "v" ++ toString v.number

/-- Items between brackets, separated by commas. -/
def listed (opening : String) (items : List String) (closing : String) : String :=
  opening ++ ", ".intercalate items ++ closing

mutual

/-- An expression of generated code as text. -/
def CodeExpr.display : CodeExpr → String
  | .var v => v.display
  | .field row index => row.display ++ "[" ++ toString index ++ "]"
  | .recordField record _ name => record.display ++ "." ++ name
  | .literal v => v.display
  | .binary op l r => "(" ++ l.display ++ " " ++ op.display ++ " " ++ r.display ++ ")"
  | .unary op e => op.name ++ "(" ++ e.display ++ ")"
  | .and es => listed "and(" (CodeExpr.displayList es) ")"
  | .or es => listed "or(" (CodeExpr.displayList es) ")"
  | .call name args => listed (name ++ "(") (CodeExpr.displayList args) ")"
  | .makeRow es => listed "[" (CodeExpr.displayList es) "]"
  | .toRecord row names => "record(" ++ row.display ++ ", " ++ ", ".intercalate names ++ ")"
  | .toRow record names => "row(" ++ record.display ++ ", " ++ ", ".intercalate names ++ ")"
  | .concat l r => "concat(" ++ l.display ++ ", " ++ r.display ++ ")"
  | .hasNext v => "has_next(" ++ v.display ++ ")"
  | .next v => "next(" ++ v.display ++ ")"

/-- The texts of several expressions. -/
def CodeExpr.displayList : List CodeExpr → List String
  | [] => []
  | e :: es => e.display :: CodeExpr.displayList es

end

/-- A pipeline as text. -/
def Pipeline.display : Pipeline → String
  | .values rows => "Values[" ++ toString rows.length ++ " rows]"
  | .scan table => "Scan[" ++ table.display ++ "]"
  | .fetch table => "Fetch[" ++ table.display ++ "]"
  | .filter input p => "Filter[" ++ p.display ++ "](" ++ input.display ++ ")"
  | .project input exprs => listed "Project[" (exprs.map Expr.display) "](" ++ input.display ++ ")"
  | .join left right type c _ =>
      "NestedLoopJoin[" ++ type.name ++ ", " ++ c.display ++ "](" ++ left.display ++ ", " ++
        right.display ++ ")"
  | .sort input order => "Sort[" ++ toString order.length ++ " keys](" ++ input.display ++ ")"
  | .limit input offset count =>
      "Limit[" ++ toString offset ++ ", " ++ toString count ++ "](" ++ input.display ++ ")"
  | .materialize program => "Materialize[" ++ toString program.length ++ " stmts]"

/-- The blanks before a statement `depth` levels deep. -/
def indentation (depth : Nat) : String := String.ofList (List.replicate (2 * depth) ' ')

mutual

/-- A statement as indented lines. -/
def Statement.display (depth : Nat) : Statement → String
  | .assign v value => indentation depth ++ "let " ++ v.display ++ " = " ++ value.display ++ "\n"
  | .openCursor cursor source =>
      indentation depth ++ "open " ++ cursor.display ++ " = " ++ source.display ++ "\n"
  | .whileDo condition body =>
      indentation depth ++ "while " ++ condition.display ++ " \x7b\n" ++
        displayStatements (depth + 1) body ++ indentation depth ++ "\x7d\n"
  | .ifThen condition body =>
      indentation depth ++ "if " ++ condition.display ++ " \x7b\n" ++
        displayStatements (depth + 1) body ++ indentation depth ++ "\x7d\n"
  | .hole => indentation depth ++ "<hole>\n"
  | .emit e => indentation depth ++ "emit " ++ e.display ++ "\n"

/-- Statements as indented lines. -/
def displayStatements (depth : Nat) : List Statement → String
  | [] => ""
  | s :: rest => s.display depth ++ displayStatements depth rest

end

/-- What can be run, as text. -/
def Executable.display : Executable → String
  | pipeline p => p.display ++ "\n"
  | program statements => displayStatements 0 statements

end QueryPlanner
