/-
# From requests to logical plans

Resolving a request names the operators and columns it refers to, and adds its plan to
a memo from the leaves up. The first thing that cannot be resolved is reported.
-/
import QueryPlanner.Catalog
import QueryPlanner.Execution
import QueryPlanner.Json.Printer
import QueryPlanner.Memo.Insertion
import QueryPlanner.Request

namespace QueryPlanner

namespace Request

/-- Resolving can fail with a complaint in words. -/
abbrev Resolve (α : Type) : Type := Except String α

/-! ## Constants and operators -/

/-- A constant. Integers beyond 64 bits with a sign become floats. -/
def scalar : Json → Resolve Scalar
  | .null => .ok .null
  | .bool b => .ok (.bool b)
  | .int n =>
      if Int64.minValue.toInt ≤ n ∧ n ≤ Int64.maxValue.toInt then .ok (.int (Int64.ofInt n))
      else .ok (.float (.ofFloat (Float.ofInt n)))
  | .float x => .ok (.float (.ofFloat x))
  | .text s => .ok (.text s)
  | other => .error ("unsupported literal " ++ other.compact)

/-- Rows of constants. -/
def rows (values : List (List Json)) : Resolve (List Row) :=
  values.mapM fun row => row.mapM scalar

/-- A binary operator by its sign. -/
def binaryOp (sign : String) : Resolve BinaryOp :=
  match BinaryOp.all.find? (fun op => op.display == sign) with
  | some op => .ok op
  | none =>
      if sign = "!=" then .ok .notEq else .error ("unknown binary operator '" ++ sign ++ "'")

/-- A unary operator by its name, whatever the case of its ASCII letters. -/
def unaryOp (name : String) : Resolve UnaryOp :=
  match name.toLower with
  | "not" => .ok .not
  | "-" => .ok .neg
  | "neg" => .ok .neg
  | "is_null" => .ok .isNull
  | "is_not_null" => .ok .isNotNull
  | other => .error ("unknown unary operator '" ++ other ++ "'")

mutual

/-- An expression over rows of some type. -/
def expr (input : RowType) : Term → Resolve Expr
  | .column index =>
      match input.fields[index]? with
      | some f => .ok (.col f.name index)
      | none =>
          .error ("column $" ++ toString index ++ " out of range for " ++ input.display)
  | .literal value => do pure (.literal (← scalar value))
  | .binary op l r => do
      let op ← binaryOp op
      pure (.binary op (← expr input l) (← expr input r))
  | .unary op e => do
      let op ← unaryOp op
      pure (.unary op (← expr input e))
  | .call name args => do pure (.call name (← exprs input args))
  | .and args => do pure (.and (← exprs input args))
  | .or args => do pure (.or (← exprs input args))

/-- Several expressions over rows of some type. -/
def exprs (input : RowType) : List Term → Resolve (List Expr)
  | [] => .ok []
  | t :: ts => do
      let e ← expr input t
      let es ← exprs input ts
      pure (e :: es)

end

/-! ## Plans -/

/-- Adding to a memo what can be resolved. -/
abbrev Build (α : Type) : Type := ExceptT String (StateM (Memo Float)) α

/-- Adds a logical operator to the memo. -/
def addLogical (op : Operator) (children : List GroupId) : Build GroupId :=
  ExceptT.mk fun (memo : Memo Float) =>
    let (result, memo) := (Memo.addLogical op children).run.run memo
    (result.mapError OptimizationError.message, memo)

/-- The row type of a group. -/
def rowTypeOf (g : GroupId) : Build RowType := do pure ((← get).group g).rowType

/-- The name of a table. -/
def Table.tableName (t : Table) : TableName := ⟨t.schema, t.name⟩

/-- The row type of a table. -/
def Table.rowType (t : Table) : RowType := ⟨t.columns⟩

/-- The first table of a schema and a name. -/
def findTable (tables : List Table) (schema name : String) : Resolve Table :=
  match tables.find? (fun t => t.schema == schema && t.name == name) with
  | some t => .ok t
  | none => .error ("unknown table " ++ schema ++ "." ++ name)

/-- Adds a relation to the memo, its inputs first, and gives its group. -/
def build (tables : List Table) : Relation → Build GroupId
  | .values columns values => do
      let rows ← (rows values : Resolve (List Row))
      addLogical (.values ⟨columns⟩ rows) []
  | .scan schema name => do
      let t ← (findTable tables schema name : Resolve Table)
      addLogical (.scan ⟨schema, name⟩ t.rowType) []
  | .filter p below => do
      let child ← build tables below
      let p ← (expr (← rowTypeOf child) p : Resolve Expr)
      addLogical (.filter p) [child]
  | .project named below => do
      let child ← build tables below
      let es ← (exprs (← rowTypeOf child) (named.map NamedTerm.term) : Resolve (List Expr))
      addLogical (.project es ⟨named.map fun n => { name := n.name, type := n.type }⟩) [child]
  | .join type condition left right => do
      let left ← build tables left
      let right ← build tables right
      let joined := (← rowTypeOf left).join (← rowTypeOf right) (type == .left)
      let condition ← (expr joined condition : Resolve Expr)
      addLogical (.join type condition) [left, right]
  | .sort keys below => do
      let child ← build tables below
      let es ← (exprs (← rowTypeOf child) (keys.map SortTerm.term) : Resolve (List Expr))
      addLogical (.sort ((es.zip keys).map fun (e, k) => ⟨e, k.ascending, k.nullsFirst⟩)) [child]
  | .limit offset count below => do
      let child ← build tables below
      addLogical (.limit offset count) [child]

/-! ## Tables -/

/-- What is known about a table. -/
def Table.statistics (t : Table) : Statistics Float :=
  .sized (t.rowCount.getD (Float.ofNat t.rows.length)) t.columns.length

/-- What is known about the tables of a request. -/
def catalog (tables : List Table) : Catalog Float :=
  tables.foldl (fun catalog t =>
    if t.federated then catalog.addFederated t.tableName t.rowType t.statistics
    else catalog.addTable t.tableName t.rowType t.statistics) {}

/-- The rows of the tables of a request. -/
def rowSource (tables : List Table) : Resolve RowSource := do
  let add (known : Dictionary String (List Row)) (t : Table) : Resolve (Dictionary String (List Row)) := do
    pure (known.insert t.tableName.display (← rows t.rows))
  pure (.ofTables (← tables.foldlM add []))

end Request

end QueryPlanner
