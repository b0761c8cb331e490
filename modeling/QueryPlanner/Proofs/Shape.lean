/-
# Shapes

What rules leave as it is, of a relation and of how it is computed: its row type, how much each of
its columns weighs when it is traced back to the columns of tables, and how many conjuncts filter
it. Operators that rules take for each other are of the same shape over the same inputs.

* `Shape` : row type, weights and content;
* `Operator.Shapes` : the shape of an operator over inputs of some shapes;
* `filter_filter`, `filter_join`, `project_project`, `project_columns`, `project_join_swapped` : the
  equations behind the transformation rules.
-/
import QueryPlanner.Operator
import QueryPlanner.Proofs.Weight

namespace QueryPlanner

open Rule

/-- The row type of a relation, the weights of its columns, and the number of conjuncts that say
something in what it is computed by. -/
@[ext]
structure Shape where
  rowType : RowType
  weights : List Nat
  content : Nat
  length_weights : weights.length = rowType.width
  weights_pos : ∀ w ∈ weights, 0 < w

namespace Shape

/-! ## Operators -/

/-- A table, whose columns are not computed. -/
def table (t : RowType) : Shape where
  rowType := t
  weights := List.replicate t.width 1
  content := 0
  length_weights := List.length_replicate
  weights_pos _ hw := Nat.lt_of_lt_of_eq Nat.one_pos (List.eq_of_mem_replicate hw).symm

/-- What a predicate leaves of a relation. -/
def filter (p : Expr) (s : Shape) : Shape := { s with content := s.content + p.content }

/-- What is computed from the rows of a relation. -/
def project (exprs : List Expr) (t : RowType) (s : Shape) (h : exprs.length = t.width) : Shape where
  rowType := t
  weights := exprs.map (Expr.weight (Expr.byPosition s.weights))
  content := s.content
  length_weights := by rw [List.length_map, h]
  weights_pos _ hw := by
    obtain ⟨e, -, rfl⟩ := List.mem_map.mp hw
    exact e.weight_pos (Expr.byPosition_pos s.weights_pos)

/-- Pairs of rows of two relations. -/
def join (type : JoinType) (c : Expr) (l r : Shape) : Shape where
  rowType := l.rowType.join r.rowType (type == .left)
  weights := l.weights ++ r.weights
  content := l.content + r.content + c.content
  length_weights := by
    rw [List.length_append, l.length_weights, r.length_weights, RowType.width_join]
  weights_pos := List.forall_mem_append.mpr ⟨l.weights_pos, r.weights_pos⟩

variable {s l r : Shape} {p q c : Expr} {inner outer merged : List Expr} {t u : RowType}

/-! ## Equations -/

/-- A filter over a filter is one filter with the conjuncts of both. -/
theorem filter_filter :
    (s.filter p).filter q = s.filter (.conjunction (p.conjuncts ++ q.conjuncts)) := by
  refine Shape.ext rfl rfl ?_
  show s.content + p.content + q.content = s.content + _
  rw [Expr.content_conjunction_append (fun x hx => hx) rfl, Nat.add_assoc]

/-- A filter over a join is a join with the conjuncts of both. -/
theorem filter_join {type : JoinType} : (l.join type c r).filter p = l.join type
    (.conjunction (c.conjuncts.filter (!isTrueLiteral ·) ++ p.conjuncts)) r := by
  refine Shape.ext rfl rfl ?_
  show l.content + r.content + c.content + p.content = l.content + r.content + _
  rw [Expr.content_conjunction_append (a := c) (fun x hx => (List.mem_filter.mp hx).1), Nat.add_assoc]
  rw [List.filter_filter]
  exact congrArg List.length (List.filter_congr fun x _ => Bool.and_self _)

/-- A projection over a projection is one projection of the inlined expressions. -/
theorem project_project (hmerged : Expr.inlineList inner outer = some merged)
    (hinner : inner.length = t.width) (houter : outer.length = u.width)
    (h : merged.length = u.width) :
    (s.project inner t hinner).project outer u houter = s.project merged u h := by
  refine Shape.ext rfl ?_ rfl
  exact (Expr.weight_inlineList hmerged).symm

/-- A column weighs what stands at its place. -/
theorem weight_column {ws : List Nat} {c : Column} {w : Nat} (h : ws[c.index]? = some w) :
    (Expr.column c).weight (Expr.byPosition ws) = w := by
  show Expr.byPosition ws c = w
  unfold Expr.byPosition
  rw [h]
  rfl

/-- A projection to all columns in order, under the same row type, changes nothing. -/
theorem project_columns {exprs : List Expr} (h : areColumnsFrom 0 exprs = true)
    (hlength : exprs.length = s.rowType.width) : s.project exprs s.rowType hlength = s := by
  refine Shape.ext rfl ?_ rfl
  have hread : exprs.map (Expr.weight (Expr.byPosition s.weights)) = s.weights.drop 0 :=
    map_of_areColumnsFrom (fun _ _ => weight_column) h (by rw [Nat.zero_add, hlength, s.length_weights])
  exact hread.trans List.drop_zero

/-- An inner join is the projection, in restored order, of the join with its inputs exchanged. -/
theorem project_join_swapped (h : (restoreOrder l.rowType.width r.rowType.width
    (l.join .inner c r).rowType).length = (l.join .inner c r).rowType.width) :
    (r.join .inner (c.mapColumns (swapIndex l.rowType.width r.rowType.width)) l).project
      (restoreOrder l.rowType.width r.rowType.width (l.join .inner c r).rowType)
      (l.join .inner c r).rowType h = l.join .inner c r := by
  refine Shape.ext rfl ?_ ?_
  · exact map_restoreOrder (fun _ _ => weight_column) l.length_weights r.length_weights
      (RowType.width_join ..)
  · show r.content + l.content + (c.mapColumns _).content = l.content + r.content + c.content
    rw [Expr.content_mapColumns, Nat.add_comm r.content]

end Shape

/-! ## The shapes of operators -/

/-- The shape of an operator over inputs of some shapes. -/
inductive Operator.Shapes : Operator → List Shape → Shape → Prop
  | values {t : RowType} {rows : List Row} : Shapes (.values t rows) [] (.table t)
  | scan {table : TableName} {t : RowType} : Shapes (.scan table t) [] (.table t)
  | filter {p : Expr} {s : Shape} : Shapes (.filter p) [s] (s.filter p)
  | project {exprs : List Expr} {t : RowType} {s : Shape} (h : exprs.length = t.width) :
      Shapes (.project exprs t) [s] (s.project exprs t h)
  | join {type : JoinType} {c : Expr} {l r : Shape} : Shapes (.join type c) [l, r] (l.join type c r)
  | sort {order : List SortKey} {s : Shape} : Shapes (.sort order) [s] s
  | limit {offset count : Nat} {s : Shape} : Shapes (.limit offset count) [s] s
  | converter {source : Convention} {s : Shape} : Shapes (.converter source) [s] s

namespace Operator.Shapes

variable {op op' : Operator} {inputs : List Shape} {s s' : Shape}

/-- An operator has at most one shape over its inputs. -/
theorem unique (h : Shapes op inputs s) (h' : Shapes op inputs s') : s = s' := by
  cases h <;> cases h' <;> rfl

/-- Its row type is the one that is derived for the operator. -/
theorem deriveRowType (h : Shapes op inputs s) :
    op.deriveRowType (inputs.map Shape.rowType) = .ok s.rowType := by
  cases h <;> rfl

/-- No operator takes more than two inputs. -/
theorem length_le (h : Shapes op inputs s) : inputs.length ≤ 2 := by
  cases h <;> simp

/-- Operators that are alike have the same shape. -/
theorem canonical (h : Shapes op inputs s) : Shapes op.canonical inputs s := by
  cases h with
  | values => exact .values
  | scan => exact .scan
  | @filter p s =>
      have hsame : s.filter p.canonical = s.filter p :=
        Shape.ext rfl rfl (congrArg (s.content + ·) p.content_canonical)
      rw [← hsame]
      exact .filter
  | @project exprs t s hlength =>
      have hlength' : (exprs.map Expr.canonical).length = t.width := by
        rw [List.length_map, hlength]
      have hsame : s.project (exprs.map Expr.canonical) t hlength' = s.project exprs t hlength := by
        refine Shape.ext rfl ?_ rfl
        show (exprs.map Expr.canonical).map _ = _
        rw [List.map_map]
        exact List.map_congr_left fun e _ => e.weight_canonical _
      rw [← hsame]
      exact .project hlength'
  | @join type c l r =>
      have hsame : l.join type c.canonical r = l.join type c r :=
        Shape.ext rfl rfl (congrArg (l.content + r.content + ·) c.content_canonical)
      rw [← hsame]
      exact .join
  | sort => exact .sort
  | limit => exact .limit
  | converter => exact .converter

/-- Operators that are alike over inputs of the same shapes have the same shape. -/
theorem eq_of_canonical_eq (h : Shapes op inputs s) (h' : Shapes op' inputs s')
    (hop : op.canonical = op'.canonical) : s = s' := by
  have hcanonical := h'.canonical
  rw [← hop] at hcanonical
  exact h.canonical.unique hcanonical

/-! ### What the inputs of an operator are -/

theorem filter_inv {p : Expr} (h : Shapes (.filter p) inputs s) :
    ∃ input, inputs = [input] ∧ s = input.filter p := by
  cases h with
  | filter => exact ⟨_, rfl, rfl⟩

theorem project_inv {exprs : List Expr} {t : RowType} (h : Shapes (.project exprs t) inputs s) :
    ∃ input, ∃ hlength : exprs.length = t.width, inputs = [input] ∧
      s = input.project exprs t hlength := by
  cases h with
  | project hlength => exact ⟨_, hlength, rfl, rfl⟩

theorem join_inv {type : JoinType} {c : Expr} (h : Shapes (.join type c) inputs s) :
    ∃ l r, inputs = [l, r] ∧ s = l.join type c r := by
  cases h with
  | join => exact ⟨_, _, rfl, rfl⟩

end Operator.Shapes

end QueryPlanner
