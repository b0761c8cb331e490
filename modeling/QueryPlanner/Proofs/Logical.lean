/-
# Logical plans

What a relation of a request stands for before any search: a tree of operators as given, with its
columns resolved, and the rows that evaluating it operator by operator gives. A plan without
limits that is typed over the rows that it reads, and has no float among its constants, denotes a
bag, and its rows are those of the bag.

* `LogicalPlan`, `LogicalPlan.rows` : plans and their rows;
* `LogicalPlan.IsTyped` : plans over rows of the declared types, with typed expressions;
* `LogicalPlan.Denotes` : the bag of a plan;
* `Denotes.rows` : the rows of a plan are those of its bag.
-/
import QueryPlanner.Proofs.Execution.Streams
import QueryPlanner.Request.Resolution

namespace QueryPlanner

/-- A logical plan: operators over their inputs. -/
inductive LogicalPlan where
  | values (rowType : RowType) (rows : List Row)
  | scan (table : TableName) (rowType : RowType)
  | filter (predicate : Expr) (input : LogicalPlan)
  | project (exprs : List Expr) (rowType : RowType) (input : LogicalPlan)
  | join (type : JoinType) (condition : Expr) (left right : LogicalPlan)
  | sort (order : List SortKey) (input : LogicalPlan)
  | limit (offset count : Nat) (input : LogicalPlan)

namespace LogicalPlan

/-- The row type of what a plan produces. -/
def rowType : LogicalPlan → RowType
  | values t _ => t
  | scan _ t => t
  | filter _ input => input.rowType
  | project _ t _ => t
  | join type _ left right => left.rowType.join right.rowType (type == .left)
  | sort _ input => input.rowType
  | limit _ _ input => input.rowType

/-- All operators of a plan. -/
def operators : LogicalPlan → List Operator
  | values t rows => [.values t rows]
  | scan table t => [.scan table t]
  | filter p input => .filter p :: input.operators
  | project exprs t input => .project exprs t :: input.operators
  | join type c left right => .join type c :: (left.operators ++ right.operators)
  | sort order input => .sort order :: input.operators
  | limit offset count input => .limit offset count :: input.operators

/-! ## Rows -/

/-- Whether a predicate is TRUE on a row. -/
def selects (p : Expr) (row : Row) : Except ExecutionError Bool := do pure (← p.eval row).isTrue

/-- The rows that a left row makes with the right rows. -/
def joinedRows (type : JoinType) (condition : Expr) (padding : Nat) (right : List Row)
    (left : Row) : Except ExecutionError (List Row) := do
  let matched ← (right.map (left ++ ·)).filterM (selects condition)
  pure (if matched.isEmpty && type == .left then [left ++ List.replicate padding .null]
    else matched)

/-- The rows of a plan, evaluated operator by operator. -/
def rows (source : RowSource) : LogicalPlan → Except ExecutionError (List Row)
  | values _ rows => pure rows
  | scan table _ => source.rows table
  | filter p input => do (← input.rows source).filterM (selects p)
  | project exprs _ input => do
      (← input.rows source).mapM fun row => exprs.mapM fun e => e.eval row
  | join type condition left right => do
      let ls ← left.rows source
      let rs ← right.rows source
      let joined ← ls.mapM (joinedRows type condition right.rowType.width rs)
      pure joined.flatten
  | sort order input => do SortKey.sortRows order (← input.rows source)
  | limit offset count input => do pure (((← input.rows source).drop offset).take count)

end LogicalPlan

namespace Request

/-- The logical plan of a relation, its columns resolved from the leaves up. -/
def Relation.logical (tables : List Table) : Relation → Resolve LogicalPlan
  | .values columns given => do pure (.values ⟨columns⟩ (← Request.rows given))
  | .scan schema name => do
      let t ← findTable tables schema name
      pure (.scan ⟨schema, name⟩ t.rowType)
  | .filter p below => do
      let input ← below.logical tables
      pure (.filter (← expr input.rowType p) input)
  | .project named below => do
      let input ← below.logical tables
      let es ← exprs input.rowType (named.map NamedTerm.term)
      pure (.project es ⟨named.map fun n => { name := n.name, type := n.type }⟩ input)
  | .join type condition left right => do
      let left ← left.logical tables
      let right ← right.logical tables
      let condition ← expr (left.rowType.join right.rowType (type == .left)) condition
      pure (.join type condition left right)
  | .sort keys below => do
      let input ← below.logical tables
      let es ← exprs input.rowType (keys.map SortTerm.term)
      pure (.sort ((es.zip keys).map fun (e, k) => ⟨e, k.ascending, k.nullsFirst⟩) input)
  | .limit offset count below => do pure (.limit offset count (← below.logical tables))

end Request

/-! ## Typed plans -/

/-- No float stands in an expression. -/
def Expr.IsFloatFree (e : Expr) : Prop := ∀ x, Expr.literal (.float x) ∉ e.parts

namespace Expr

mutual

/-- Without floats, an expression stands for itself. -/
theorem IsFloatFree.canonical_eq : ∀ {e : Expr}, e.IsFloatFree → e.canonical = e
  | column _, _ => rfl
  | literal v, h => by
      cases v with
      | float x => exact absurd List.mem_cons_self (h x)
      | _ => rfl
  | binary op l r, h => by
      have hl : l.IsFloatFree := fun x hx =>
        h x (List.mem_cons_of_mem _ (List.mem_append_left _ hx))
      have hr : r.IsFloatFree := fun x hx =>
        h x (List.mem_cons_of_mem _ (List.mem_append_right _ hx))
      rw [canonical, hl.canonical_eq, hr.canonical_eq]
  | unary op e, h => by
      have he : e.IsFloatFree := fun x hx => h x (List.mem_cons_of_mem _ hx)
      rw [canonical, he.canonical_eq]
  | call name args, h => by
      rw [canonical, canonicalList_eq_self_of_isFloatFree fun x hx =>
        h x (List.mem_cons_of_mem _ hx)]
  | and es, h => by
      rw [canonical, canonicalList_eq_self_of_isFloatFree fun x hx =>
        h x (List.mem_cons_of_mem _ hx)]
  | or es, h => by
      rw [canonical, canonicalList_eq_self_of_isFloatFree fun x hx =>
        h x (List.mem_cons_of_mem _ hx)]

/-- Without floats, several expressions stand for themselves. -/
theorem canonicalList_eq_self_of_isFloatFree : ∀ {es : List Expr},
    (∀ x, literal (.float x) ∉ partsOfList es) → canonicalList es = es
  | [], _ => rfl
  | e :: es, h => by
      have he : e.IsFloatFree := fun x hx => h x (List.mem_append_left _ hx)
      rw [canonicalList, he.canonical_eq,
        canonicalList_eq_self_of_isFloatFree fun x hx => h x (List.mem_append_right _ hx)]

end

end Expr

/-- No float stands among the constants of an operator. -/
def Operator.IsFloatFree : Operator → Prop
  | values _ rows => ∀ row ∈ rows, ∀ x, Scalar.float x ∉ row
  | filter p => p.IsFloatFree
  | project exprs _ => ∀ e ∈ exprs, e.IsFloatFree
  | join _ c => c.IsFloatFree
  | sort order => ∀ k ∈ order, k.expr.IsFloatFree
  | _ => True

namespace LogicalPlan

/-- The rows that a plan gives or reads are of their declared types; predicates and conditions are
truth values, columns are of their declared types, and each sort key is of some type. -/
def IsTyped (source : RowSource) : LogicalPlan → Prop
  | values t rows => ∀ row ∈ rows, t.Admits row
  | scan table t => ∃ rows, source.rows table = .ok rows ∧ ∀ row ∈ rows, t.Admits row
  | filter p input => p.HasType input.rowType .boolean ∧ input.IsTyped source
  | project exprs t input => Bag.Projects exprs input.rowType t ∧ input.IsTyped source
  | join type c left right =>
      c.HasType (left.rowType.join right.rowType (type == .left)) .boolean ∧
        left.IsTyped source ∧ right.IsTyped source
  | sort order input =>
      (∀ k ∈ order, ∃ type, k.expr.HasType input.rowType type) ∧ input.IsTyped source
  | limit _ _ input => input.IsTyped source

/-- The bag that a plan denotes. -/
inductive Denotes (source : RowSource) : LogicalPlan → Bag → Prop
  | values {t : RowType} {rows : List Row} {out : Bag}
      (h : Operator.Denotes source (.values t rows) [] out) : Denotes source (values t rows) out
  | scan {table : TableName} {t : RowType} {out : Bag}
      (h : Operator.Denotes source (.scan table t) [] out) : Denotes source (scan table t) out
  | filter {p : Expr} {input : LogicalPlan} {b out : Bag} (hinput : Denotes source input b)
      (h : Operator.Denotes source (.filter p) [b] out) : Denotes source (filter p input) out
  | project {exprs : List Expr} {t : RowType} {input : LogicalPlan} {b out : Bag}
      (hinput : Denotes source input b) (h : Operator.Denotes source (.project exprs t) [b] out) :
      Denotes source (project exprs t input) out
  | join {type : JoinType} {c : Expr} {left right : LogicalPlan} {l r out : Bag}
      (hleft : Denotes source left l) (hright : Denotes source right r)
      (h : Operator.Denotes source (.join type c) [l, r] out) :
      Denotes source (join type c left right) out
  | sort {order : List SortKey} {input : LogicalPlan} {b out : Bag}
      (hinput : Denotes source input b) (h : Operator.Denotes source (.sort order) [b] out) :
      Denotes source (sort order input) out

variable {source : RowSource} {plan : LogicalPlan} {b : Bag}

/-- The row type of a plan is that of its bag. -/
theorem Denotes.rowType_eq (h : plan.Denotes source b) : b.rowType = plan.rowType := by
  induction h with
  | values h =>
      cases h
      rfl
  | scan h =>
      cases h
      rfl
  | filter _ h ih =>
      cases h
      exact ih
  | project _ h ih =>
      cases h
      rfl
  | join _ _ h ihl ihr =>
      cases h
      rw [LogicalPlan.rowType, ← ihl, ← ihr]
      rfl
  | sort _ h ih =>
      cases h
      exact ih

/-- A typed plan without limits and floats denotes a bag. -/
theorem exists_denotes (htyped : plan.IsTyped source)
    (hlimit : ∀ op ∈ plan.operators, op.kind ≠ .limit)
    (hfloat : ∀ op ∈ plan.operators, op.IsFloatFree) : ∃ b, plan.Denotes source b := by
  induction plan with
  | values t rows =>
      refine ⟨_, .values (.values htyped fun row hrow v hv => ?_)⟩
      have hfree := hfloat _ (List.mem_singleton_self _) row hrow
      cases v with
      | float x => exact absurd hv (hfree x)
      | _ => rfl
  | scan table t =>
      obtain ⟨rows, hrows, hadmits⟩ := htyped
      exact ⟨_, .scan (.scan hrows hadmits)⟩
  | filter p input ih =>
      obtain ⟨hp, hinput⟩ := htyped
      obtain ⟨-, hlimits⟩ := List.forall_mem_cons.mp hlimit
      obtain ⟨hfree, hfrees⟩ := List.forall_mem_cons.mp hfloat
      obtain ⟨b, hb⟩ := ih hinput hlimits hfrees
      rw [← hb.rowType_eq] at hp
      exact ⟨_, .filter hb (.filter hp hfree.canonical_eq)⟩
  | project exprs t input ih =>
      obtain ⟨hexprs, hinput⟩ := htyped
      obtain ⟨-, hlimits⟩ := List.forall_mem_cons.mp hlimit
      obtain ⟨hfree, hfrees⟩ := List.forall_mem_cons.mp hfloat
      obtain ⟨b, hb⟩ := ih hinput hlimits hfrees
      rw [← hb.rowType_eq] at hexprs
      exact ⟨_, .project hb (.project hexprs fun e he => (hfree e he).canonical_eq)⟩
  | join type c left right ihl ihr =>
      obtain ⟨hc, hleft, hright⟩ := htyped
      obtain ⟨-, hlimits⟩ := List.forall_mem_cons.mp hlimit
      obtain ⟨hfree, hfrees⟩ := List.forall_mem_cons.mp hfloat
      rw [List.forall_mem_append] at hlimits hfrees
      obtain ⟨l, hl⟩ := ihl hleft hlimits.1 hfrees.1
      obtain ⟨r, hr⟩ := ihr hright hlimits.2 hfrees.2
      rw [← hl.rowType_eq, ← hr.rowType_eq] at hc
      exact ⟨_, .join hl hr (.join hc hfree.canonical_eq)⟩
  | sort order input ih =>
      obtain ⟨hkeys, hinput⟩ := htyped
      obtain ⟨-, hlimits⟩ := List.forall_mem_cons.mp hlimit
      obtain ⟨hfree, hfrees⟩ := List.forall_mem_cons.mp hfloat
      obtain ⟨b, hb⟩ := ih hinput hlimits hfrees
      rw [← hb.rowType_eq] at hkeys
      exact ⟨_, .sort hb (.sort hkeys fun k hk => (hfree k hk).canonical_eq)⟩
  | limit offset count input _ => exact absurd rfl (hlimit _ List.mem_cons_self)

/-! ## The rows of a plan and its bag -/

/-- A filter each step of which succeeds keeps what its steps say. -/
theorem filterM_eq_ok {ε α : Type} {f : α → Except ε Bool} {g : α → Bool} {as : List α}
    (h : ∀ a ∈ as, f a = .ok (g a)) : as.filterM f = .ok (as.filter g) := by
  -- the rows kept so far are stored in reverse
  have hkept : ∀ acc, List.filterAuxM f as acc = .ok ((as.filter g).reverse ++ acc) := by
    induction as with
    | nil => exact fun acc => rfl
    | cons a rest ih =>
        intro acc
        obtain ⟨ha, hrest⟩ := List.forall_mem_cons.mp h
        rw [List.filterAuxM, ha, List.filter_cons]
        refine (ih hrest _).trans ?_
        cases g a with
        | true => simp
        | false => simp
  rw [List.filterM, hkept, List.append_nil]
  exact congrArg Except.ok (List.reverse_reverse _)

theorem selects_eq {p : Expr} {row : Row} (h : p.Evaluates row) :
    selects p row = .ok (p.holds row) := by
  rw [selects, h.eval]
  rfl

theorem joinedRows_eq {type : JoinType} {c : Expr} {padding : Nat} {right : List Row} {left : Row}
    (h : ∀ row ∈ right, c.Evaluates (left ++ row)) :
    joinedRows type c padding right left = .ok (type.pairRows c padding right left) := by
  have hmatched : (right.map (left ++ ·)).filterM (selects c) =
      .ok ((right.map (left ++ ·)).filter c.holds) := by
    refine filterM_eq_ok fun row hrow => ?_
    obtain ⟨r, hr, rfl⟩ := List.mem_map.mp hrow
    exact selects_eq (h r hr)
  rw [joinedRows, hmatched]
  rfl

/-- Evaluating a plan that denotes a bag gives the rows of the bag. -/
theorem Denotes.rows (h : plan.Denotes source b) :
    ∃ rows, plan.rows source = .ok rows ∧ b.Lists rows := by
  induction h with
  | values h =>
      cases h
      exact ⟨_, rfl, rfl⟩
  | scan h =>
      cases h with
      | scan supplied => exact ⟨_, supplied, rfl⟩
  | filter _ h ih =>
      obtain ⟨rows, hrows, hlists⟩ := ih
      cases h with
      | filter typed =>
          refine ⟨_, ?_, hlists.filter _⟩
          rw [LogicalPlan.rows, hrows]
          exact filterM_eq_ok fun row hrow => selects_eq (typed.evaluates (hlists.admits row hrow))
  | project _ h ih =>
      obtain ⟨rows, hrows, hlists⟩ := ih
      cases h with
      | project typed =>
          refine ⟨_, ?_, hlists.project typed⟩
          rw [LogicalPlan.rows, hrows]
          refine mapM_eq_ok_map fun row hrow => Expr.mapM_eval fun e he => ?_
          obtain ⟨type, htype⟩ := Bag.Projects.exists_type typed e he
          exact htype.evaluates (hlists.admits row hrow)
  | @join type c left right l r _ _ hright h ihl ihr =>
      obtain ⟨ls, hls, hleftLists⟩ := ihl
      obtain ⟨rs, hrs, hrightLists⟩ := ihr
      cases h with
      | join typed =>
          refine ⟨_, ?_, hleftLists.join hrightLists type c⟩
          rw [LogicalPlan.rows, hls, hrs, ← hright.rowType_eq]
          have hjoined : ls.mapM (joinedRows type c r.rowType.width rs) =
              .ok (ls.map (type.pairRows c r.rowType.width rs)) :=
            mapM_eq_ok_map fun x hx => joinedRows_eq fun y hy => typed.evaluates
              ((hleftLists.admits x hx).append (hrightLists.admits y hy) _)
          show (ls.mapM (joinedRows type c r.rowType.width rs) >>= _) = _
          rw [hjoined]
          rfl
  | @sort order _ _ _ _ h ih =>
      obtain ⟨rows, hrows, hlists⟩ := ih
      cases h with
      | sort typed =>
          -- a bag has no order, so that only the rows of a sort matter
          have hkeys : ∀ row ∈ rows, ∀ k ∈ order, k.expr.eval row = .ok (k.expr.value row) := by
            intro row hrow k hk
            obtain ⟨type, htype⟩ := typed k hk
            exact (htype.evaluates (hlists.admits row hrow)).eval
          obtain ⟨sorted, hsorted, hsorts⟩ :=
            SortKey.exists_sortRows hkeys (SortKey.areCoherent_of_typed typed hlists.admits)
          refine ⟨sorted, ?_, hlists.of_perm hsorts.perm⟩
          rw [LogicalPlan.rows, hrows]
          exact hsorted

end LogicalPlan

end QueryPlanner
