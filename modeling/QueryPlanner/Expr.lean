/-
# Scalar expressions

Computations on the columns of one row: filter predicates, projections, join
conditions and sort keys. Columns are addressed by position; their names are kept for
display and for looking up statistics.

* `beq_iff_eq` : the structural comparison decides equality;
* `canonical_canonical` : the canonical form of an expression is its own canonical form;
* `conjunctsOfList_eq`, `mapColumnsList_eq` and their like : what is defined along the
  operands of an expression is what the list functions make of them.
-/
import QueryPlanner.Scalar

namespace QueryPlanner

/-- A reference to a column of the input row. -/
structure Column where
  table : Option String
  name : String
  index : Nat
  deriving DecidableEq, Repr, Inhabited

/-- The column's qualified name, or its position where it belongs to no table. -/
def Column.display (c : Column) : String :=
  match c.table with
  | some table => table ++ "." ++ c.name
  | none => "$" ++ toString c.index

/-- Comparisons and arithmetic. -/
inductive BinaryOp where
  | eq | notEq | lt | ltEq | gt | gtEq | add | sub | mul | div
  deriving DecidableEq, Repr, Inhabited

namespace BinaryOp

/-- The sign of an operator. -/
def display : BinaryOp → String
  | eq => "="
  | notEq => "<>"
  | lt => "<"
  | ltEq => "<="
  | gt => ">"
  | gtEq => ">="
  | add => "+"
  | sub => "-"
  | mul => "*"
  | div => "/"

/-- The name of an operator. -/
def name : BinaryOp → String
  | eq => "Eq"
  | notEq => "NotEq"
  | lt => "Lt"
  | ltEq => "LtEq"
  | gt => "Gt"
  | gtEq => "GtEq"
  | add => "Add"
  | sub => "Sub"
  | mul => "Mul"
  | div => "Div"

/-- The comparison that holds with the operands exchanged. -/
def flip : BinaryOp → BinaryOp
  | lt => gt
  | ltEq => gtEq
  | gt => lt
  | gtEq => ltEq
  | other => other

/-- All operators. -/
def all : List BinaryOp := [eq, notEq, lt, ltEq, gt, gtEq, add, sub, mul, div]

end BinaryOp

/-- Negations and tests for the missing value. -/
inductive UnaryOp where
  | not | neg | isNull | isNotNull
  deriving DecidableEq, Repr, Inhabited

namespace UnaryOp

/-- The name of an operator. -/
def name : UnaryOp → String
  | not => "Not"
  | neg => "Neg"
  | isNull => "IsNull"
  | isNotNull => "IsNotNull"

/-- All operators. -/
def all : List UnaryOp := [not, neg, isNull, isNotNull]

end UnaryOp

/-- An expression over the columns of a row. Conjunctions and disjunctions are flat
lists. -/
inductive Expr where
  | column (c : Column)
  | literal (value : Scalar)
  | binary (op : BinaryOp) (left right : Expr)
  | unary (op : UnaryOp) (operand : Expr)
  | call (name : String) (args : List Expr)
  | and (operands : List Expr)
  | or (operands : List Expr)
  deriving Inhabited

namespace Expr

/-- The column called `name` at a position, of no particular table. -/
def col (name : String) (index : Nat) : Expr := column ⟨none, name, index⟩

/-! ## Equality -/

mutual

/-- Whether two expressions are the same. -/
def beq : Expr → Expr → Bool
  | column c, column c' => decide (c = c')
  | literal v, literal v' => decide (v = v')
  | binary op l r, binary op' l' r' => decide (op = op') && beq l l' && beq r r'
  | unary op e, unary op' e' => decide (op = op') && beq e e'
  | call n es, call n' es' => decide (n = n') && beqList es es'
  | and es, and es' => beqList es es'
  | or es, or es' => beqList es es'
  | _, _ => false

/-- Whether two lists of expressions are the same. -/
def beqList : List Expr → List Expr → Bool
  | [], [] => true
  | e :: es, e' :: es' => beq e e' && beqList es es'
  | _, _ => false

end

mutual

/-- The comparison decides equality. -/
theorem beq_iff_eq : ∀ a b : Expr, beq a b = true ↔ a = b
  | column _, b => by cases b <;> simp [beq]
  | literal _, b => by cases b <;> simp [beq]
  | binary _ l r, b => by
      cases b <;> simp [beq, beq_iff_eq l, beq_iff_eq r, and_assoc]
  | unary _ e, b => by cases b <;> simp [beq, beq_iff_eq e]
  | call _ es, b => by cases b <;> simp [beq, beqList_iff_eq es]
  | and es, b => by cases b <;> simp [beq, beqList_iff_eq es]
  | or es, b => by cases b <;> simp [beq, beqList_iff_eq es]

/-- The comparison of lists decides equality. -/
theorem beqList_iff_eq : ∀ as bs : List Expr, beqList as bs = true ↔ as = bs
  | [], bs => by cases bs <;> simp [beqList]
  | a :: as, bs => by cases bs <;> simp [beqList, beq_iff_eq a, beqList_iff_eq as]

end

instance : DecidableEq Expr := fun a b => decidable_of_iff _ (beq_iff_eq a b)

/-! ## Likeness -/

mutual

/-- The expression with every literal in its canonical form. -/
def canonical : Expr → Expr
  | column c => column c
  | literal v => literal v.canonical
  | binary op l r => binary op l.canonical r.canonical
  | unary op e => unary op e.canonical
  | call name args => call name (canonicalList args)
  | and es => and (canonicalList es)
  | or es => or (canonicalList es)

/-- `canonical` for every expression of a list. -/
def canonicalList : List Expr → List Expr
  | [] => []
  | e :: es => e.canonical :: canonicalList es

end

/-- The canonical forms of a list are those of its expressions. -/
theorem canonicalList_eq (es : List Expr) : canonicalList es = es.map canonical := by
  induction es with
  | nil => rfl
  | cons e es ih => simp [canonicalList, ih]

mutual

/-- A canonical form is its own canonical form. -/
theorem canonical_canonical : ∀ e : Expr, e.canonical.canonical = e.canonical
  | column _ => rfl
  | literal v => by simp [canonical, Scalar.canonical_canonical v]
  | binary _ l r => by simp [canonical, canonical_canonical l, canonical_canonical r]
  | unary _ e => by simp [canonical, canonical_canonical e]
  | call _ args => by simp [canonical, canonicalList_canonicalList args]
  | and es => by simp [canonical, canonicalList_canonicalList es]
  | or es => by simp [canonical, canonicalList_canonicalList es]

/-- `canonical_canonical` for every expression of a list. -/
theorem canonicalList_canonicalList :
    ∀ es : List Expr, canonicalList (canonicalList es) = canonicalList es
  | [] => rfl
  | e :: es => by simp [canonicalList, canonical_canonical e, canonicalList_canonicalList es]

end

/-- Whether two expressions are the same up to likeness of their literals. -/
def alike (a b : Expr) : Bool := decide (a.canonical = b.canonical)

/-! ## Columns -/

mutual

/-- The columns an expression reads, from left to right. -/
def columns : Expr → List Column
  | column c => [c]
  | literal _ => []
  | binary _ l r => l.columns ++ r.columns
  | unary _ e => e.columns
  | call _ args => columnsOfList args
  | and es => columnsOfList es
  | or es => columnsOfList es

/-- The columns that several expressions read. -/
def columnsOfList : List Expr → List Column
  | [] => []
  | e :: es => e.columns ++ columnsOfList es

end

mutual

/-- Moves every column reference to position `f index`. -/
def mapColumns (f : Nat → Nat) : Expr → Expr
  | column c => column { c with index := f c.index }
  | literal v => literal v
  | binary op l r => binary op (l.mapColumns f) (r.mapColumns f)
  | unary op e => unary op (e.mapColumns f)
  | call name args => call name (mapColumnsList f args)
  | and es => and (mapColumnsList f es)
  | or es => or (mapColumnsList f es)

/-- `mapColumns` for every expression of a list. -/
def mapColumnsList (f : Nat → Nat) : List Expr → List Expr
  | [] => []
  | e :: es => e.mapColumns f :: mapColumnsList f es

end

mutual

/-- Replaces every column reference by the expression at its position, if all of them
are in range. -/
def inline (inner : List Expr) : Expr → Option Expr
  | column c => inner[c.index]?
  | literal v => some (literal v)
  | binary op l r => do pure (binary op (← l.inline inner) (← r.inline inner))
  | unary op e => do pure (unary op (← e.inline inner))
  | call name args => do pure (call name (← inlineList inner args))
  | and es => do pure (and (← inlineList inner es))
  | or es => do pure (or (← inlineList inner es))

/-- `inline` for every expression of a list. -/
def inlineList (inner : List Expr) : List Expr → Option (List Expr)
  | [] => some []
  | e :: es => do pure ((← e.inline inner) :: (← inlineList inner es))

end

/-! ## Conjunctions -/

mutual

/-- The operands of nested conjunctions, flattened from left to right. -/
def conjuncts : Expr → List Expr
  | and es => conjunctsOfList es
  | other => [other]

/-- The flattened operands of several expressions. -/
def conjunctsOfList : List Expr → List Expr
  | [] => []
  | e :: es => e.conjuncts ++ conjunctsOfList es

end

/-- The conjunction of some predicates: TRUE for none of them, and one of them as it is. -/
def conjunction : List Expr → Expr
  | [] => literal (.bool true)
  | [e] => e
  | es => and es

/-! ## Text -/

mutual

/-- An expression as text. -/
def display : Expr → String
  | column c => c.display
  | literal v => v.display
  | binary op l r => "(" ++ l.display ++ " " ++ op.display ++ " " ++ r.display ++ ")"
  | unary .not e => "NOT " ++ e.display
  | unary .neg e => "-" ++ e.display
  | unary .isNull e => e.display ++ " IS NULL"
  | unary .isNotNull e => e.display ++ " IS NOT NULL"
  | call name args => name ++ "(" ++ ", ".intercalate (displayList args) ++ ")"
  | and es => "(" ++ " AND ".intercalate (displayList es) ++ ")"
  | or es => "(" ++ " OR ".intercalate (displayList es) ++ ")"

/-- The texts of several expressions. -/
def displayList : List Expr → List String
  | [] => []
  | e :: es => e.display :: displayList es

end

/-! ## Lists of expressions -/

/-- The columns of a list are those of its expressions, in order. -/
theorem columnsOfList_eq (es : List Expr) : columnsOfList es = es.flatMap columns := by
  induction es with
  | nil => rfl
  | cons e es ih => simp [columnsOfList, ih]

/-- The columns of a list are moved in each of its expressions. -/
theorem mapColumnsList_eq (f : Nat → Nat) (es : List Expr) :
    mapColumnsList f es = es.map (mapColumns f) := by
  induction es with
  | nil => rfl
  | cons e es ih => simp [mapColumnsList, ih]

/-- A list of expressions is inlined by inlining each of them. -/
theorem inlineList_eq (inner es : List Expr) : inlineList inner es = es.mapM (inline inner) := by
  induction es with
  | nil => rfl
  | cons e es ih => simp [inlineList, ih]

/-- The texts of a list are those of its expressions. -/
theorem displayList_eq (es : List Expr) : displayList es = es.map display := by
  induction es with
  | nil => rfl
  | cons e es ih => simp [displayList, ih]

/-- The conjuncts of a list are those of its expressions, in order. -/
theorem conjunctsOfList_eq (es : List Expr) : conjunctsOfList es = es.flatMap conjuncts := by
  induction es with
  | nil => rfl
  | cons e es ih => simp [conjunctsOfList, ih]

end Expr

/-- One key of a sort. -/
structure SortKey where
  expr : Expr
  ascending : Bool
  nullsFirst : Bool
  deriving DecidableEq, Inhabited

/-- The sort key with every literal in its canonical form. -/
def SortKey.canonical (k : SortKey) : SortKey := { k with expr := k.expr.canonical }

end QueryPlanner
