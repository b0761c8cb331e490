/-
# Bags of rows

What an operator produces, the order of rows aside, is a bag of rows of one row type. An
operator denotes a bag over the bags of its inputs if its expressions are typed over their rows,
and its literals stand for themselves; a limit denotes none, since what it keeps depends on the
order.

* `Bag` : rows of a row type, in no particular order;
* `Operator.Denotes` : the bag of an operator over those of its inputs;
* `Operator.Denotes.unique` : there is at most one.
-/
import Mathlib.Data.Multiset.Bind
import QueryPlanner.Execution
import QueryPlanner.Proofs.Rewriting

namespace QueryPlanner

/-- Whether a predicate is TRUE on a row. -/
def Expr.holds (p : Expr) (row : Row) : Bool := (p.value row).isTrue

/-- The rows that a left row makes with the right rows; a row of a left join that matches none of
them is padded with missing values. -/
def JoinType.pairs (type : JoinType) (condition : Expr) (padding : Nat) (right : Multiset Row)
    (left : Row) : Multiset Row :=
  let matched := (right.map (left ++ ·)).filter fun row => condition.holds row = true
  if type = .left ∧ matched = 0 then {left ++ List.replicate padding .null} else matched

/-- Rows of a row type, in no particular order. -/
@[ext]
structure Bag where
  rowType : RowType
  rows : Multiset Row
  admits : ∀ row ∈ rows, rowType.Admits row

namespace Bag

variable {b l r : Bag}

/-- The rows for which a predicate is TRUE. -/
def filter (p : Expr) (b : Bag) : Bag where
  rowType := b.rowType
  rows := b.rows.filter fun row => p.holds row = true
  admits row hrow := b.admits row (Multiset.mem_of_mem_filter hrow)

/-- Expressions that are typed over a row type and give rows of another one. -/
abbrev Projects (exprs : List Expr) (t out : RowType) : Prop :=
  List.Forall₂ (fun e f => e.HasType t f.type) exprs out.fields

/-- Each of the expressions of a projection is of some type. -/
theorem Projects.exists_type {exprs : List Expr} {t out : RowType} (h : Projects exprs t out) :
    ∀ e ∈ exprs, ∃ type, e.HasType t type := by
  unfold Projects at h
  generalize out.fields = fields at h
  induction h with
  | nil => exact fun _ he => absurd he List.not_mem_nil
  | cons he _ ih => exact List.forall_mem_cons.mpr ⟨⟨_, he⟩, ih⟩

/-- One computed row for each row. -/
def project (exprs : List Expr) (out : RowType) (b : Bag) (h : Projects exprs b.rowType out) :
    Bag where
  rowType := out
  rows := b.rows.map fun row => exprs.map (Expr.value row)
  admits row hrow := by
    obtain ⟨x, hx, rfl⟩ := Multiset.mem_map.mp hrow
    exact Expr.admits_map_value h (b.admits x hx)

/-- What a row makes with rows of another bag is of the joined row type. -/
theorem admits_pairs {type : JoinType} {condition : Expr} {left row : Row}
    (hleft : l.rowType.Admits left)
    (h : row ∈ type.pairs condition r.rowType.width r.rows left) :
    (l.rowType.join r.rowType (type == .left)).Admits row := by
  unfold JoinType.pairs at h
  dsimp only at h
  split at h
  · rw [Multiset.mem_singleton] at h
    subst h
    exact hleft.append r.rowType.admits_replicate_null _
  · obtain ⟨right, hright, rfl⟩ := Multiset.mem_map.mp (Multiset.mem_of_mem_filter h)
    exact hleft.append (r.admits right hright) _

/-- Pairs of rows for which a condition over both is TRUE. -/
def join (type : JoinType) (condition : Expr) (l r : Bag) : Bag where
  rowType := l.rowType.join r.rowType (type == .left)
  rows := l.rows.bind (type.pairs condition r.rowType.width r.rows)
  admits row hrow := by
    obtain ⟨left, hleft, hpair⟩ := Multiset.mem_bind.mp hrow
    exact admits_pairs (l.admits left hleft) hpair

end Bag

/-! ## What operators denote -/

/-- The bag that an operator denotes over the bags of its inputs. -/
inductive Operator.Denotes (source : RowSource) : Operator → List Bag → Bag → Prop
  | values {t : RowType} {rows : List Row} (admits : ∀ row ∈ rows, t.Admits row)
      (canonical : ∀ row ∈ rows, ∀ v ∈ row, v.canonical = v) :
      Denotes source (.values t rows) [] ⟨t, rows, admits⟩
  | scan {table : TableName} {t : RowType} {rows : List Row}
      (supplied : source.rows table = .ok rows) (admits : ∀ row ∈ rows, t.Admits row) :
      Denotes source (.scan table t) [] ⟨t, rows, admits⟩
  | filter {p : Expr} {b : Bag} (typed : p.HasType b.rowType .boolean)
      (canonical : p.canonical = p) : Denotes source (.filter p) [b] (b.filter p)
  | project {exprs : List Expr} {out : RowType} {b : Bag}
      (typed : Bag.Projects exprs b.rowType out) (canonical : ∀ e ∈ exprs, e.canonical = e) :
      Denotes source (.project exprs out) [b] (b.project exprs out typed)
  | join {type : JoinType} {c : Expr} {l r : Bag}
      (typed : c.HasType (l.rowType.join r.rowType (type == .left)) .boolean)
      (canonical : c.canonical = c) : Denotes source (.join type c) [l, r] (l.join type c r)
  | sort {order : List SortKey} {b : Bag}
      (typed : ∀ k ∈ order, ∃ type, k.expr.HasType b.rowType type)
      (canonical : ∀ k ∈ order, k.expr.canonical = k.expr) : Denotes source (.sort order) [b] b
  | converter {given : Convention} {b : Bag} : Denotes source (.converter given) [b] b

namespace Operator.Denotes

variable {source : RowSource} {op : Operator} {inputs : List Bag} {out out' : Bag}

/-- An operator denotes at most one bag over its inputs. -/
theorem unique (h : Denotes source op inputs out) (h' : Denotes source op inputs out') :
    out = out' := by
  cases h with
  | scan supplied _ =>
      cases h' with
      | scan supplied' _ =>
          cases Except.ok.inj (supplied.symm.trans supplied')
          rfl
  | _ =>
      cases h'
      rfl

/-- The row type of the bag is the one that is derived for the operator. -/
theorem deriveRowType (h : Denotes source op inputs out) :
    op.deriveRowType (inputs.map Bag.rowType) = .ok out.rowType := by
  cases h <;> rfl

/-- There is a bag for each input that the operator takes. -/
theorem length_inputs (h : Denotes source op inputs out) : inputs.length = op.arity := by
  rw [← deriveRowType_length h.deriveRowType, List.length_map]

/-- All literals of the operator stand for themselves. -/
theorem canonical_eq (h : Denotes source op inputs out) : op.canonical = op := by
  cases h with
  | values admits hc =>
      rw [Operator.canonical, values.injEq]
      refine ⟨rfl, (List.map_congr_left fun row hrow => ?_).trans (List.map_id _)⟩
      exact (List.map_congr_left fun v hv => hc row hrow v hv).trans (List.map_id _)
  | scan => rfl
  | filter _ hc => rw [Operator.canonical, hc]
  | project _ hc =>
      rw [Operator.canonical, project.injEq]
      exact ⟨(List.map_congr_left hc).trans (List.map_id _), rfl⟩
  | join _ hc => rw [Operator.canonical, hc]
  | sort _ hc =>
      rw [Operator.canonical, sort.injEq]
      refine (List.map_congr_left fun k hk => ?_).trans (List.map_id _)
      rw [SortKey.canonical, hc k hk, id_eq]
  | converter => rfl

/-! ### What the inputs of an operator are -/

theorem filter_inv {p : Expr} (h : Denotes source (.filter p) inputs out) :
    ∃ b, inputs = [b] ∧ p.HasType b.rowType .boolean ∧ p.canonical = p ∧ out = b.filter p := by
  cases h with
  | filter typed canonical => exact ⟨_, rfl, typed, canonical, rfl⟩

theorem project_inv {exprs : List Expr} {t : RowType}
    (h : Denotes source (.project exprs t) inputs out) :
    ∃ b, ∃ typed : Bag.Projects exprs b.rowType t, inputs = [b] ∧
      (∀ e ∈ exprs, e.canonical = e) ∧ out = b.project exprs t typed := by
  cases h with
  | project typed canonical => exact ⟨_, typed, rfl, canonical, rfl⟩

theorem join_inv {type : JoinType} {c : Expr} (h : Denotes source (.join type c) inputs out) :
    ∃ l r, inputs = [l, r] ∧ c.HasType (l.rowType.join r.rowType (type == .left)) .boolean ∧
      c.canonical = c ∧ out = l.join type c r := by
  cases h with
  | join typed canonical => exact ⟨_, _, rfl, typed, canonical, rfl⟩

end Operator.Denotes

end QueryPlanner
