/-
# Equations between bags

What the transformation rules rest on: that different operators over the same bags denote the
same bag.

* `filter_filter`, `filter_join` : a predicate over a filter or an inner join joins its predicate;
* `project_project` : projections compose;
* `project_columns` : listing all columns in order changes nothing;
* `project_join_swapped` : an inner join is a projection of the join with its inputs exchanged.
-/
import QueryPlanner.Proofs.Bag

namespace QueryPlanner

open Rule

/-- Without padding, the rows of a join are the pairs that meet the condition. -/
theorem JoinType.pairs_inner (c : Expr) (padding : Nat) (right : Multiset Row) (left : Row) :
    JoinType.inner.pairs c padding right left =
      (right.map (left ++ ·)).filter fun row => c.holds row = true := by
  unfold JoinType.pairs
  rw [if_neg fun h => nomatch h.1]

namespace Bag

variable {b l r : Bag} {p q c d : Expr}

/-- A filter over a filter is one filter by a predicate that holds where both do. -/
theorem filter_filter
    (h : ∀ row, b.rowType.Admits row → d.holds row = (p.holds row && q.holds row)) :
    (b.filter p).filter q = b.filter d := by
  refine Bag.ext rfl ?_
  show Multiset.filter _ (Multiset.filter _ b.rows) = Multiset.filter _ b.rows
  rw [Multiset.filter_filter]
  refine Multiset.filter_congr fun row hrow => ?_
  rw [h row (b.admits row hrow), Bool.and_eq_true, and_comm]

/-- A filter over an inner join is an inner join by a condition that holds where both do. -/
theorem filter_join (h : ∀ row, (l.rowType.join r.rowType false).Admits row →
    d.holds row = (c.holds row && p.holds row)) :
    (l.join .inner c r).filter p = l.join .inner d r := by
  refine Bag.ext rfl ?_
  show Multiset.filter _ (Multiset.bind l.rows _) = Multiset.bind l.rows _
  rw [Multiset.filter_bind]
  refine Multiset.bind_congr fun left hleft => ?_
  rw [JoinType.pairs_inner, JoinType.pairs_inner, Multiset.filter_filter]
  refine Multiset.filter_congr fun row hrow => ?_
  obtain ⟨right, hright, rfl⟩ := Multiset.mem_map.mp hrow
  -- a pair is a row of the join's type, over which both predicates are typed
  rw [h _ ((l.admits left hleft).append (r.admits right hright) false), Bool.and_eq_true, and_comm]

/-! ## Projections -/

section Projections

variable {inner outer merged : List Expr} {t u : RowType} {row : Row}

/-- Expressions inlined into typed expressions are typed, and compute what they compute. -/
theorem projects_inline (hin : Projects inner b.rowType t) (hout : Projects outer t u)
    (h : Expr.inlineList inner outer = some merged) :
    Projects merged b.rowType u ∧ ∀ row, b.rowType.Admits row →
      merged.map (Expr.value row) = outer.map (Expr.value (inner.map (Expr.value row))) := by
  obtain ⟨rfl, hcolumns⟩ := Expr.inlineList_eq_substituteList inner h
  -- each column of an outer expression is in range, and stands for a typed inner one
  have hsupplies : ∀ e ∈ outer, ∀ row, b.rowType.Admits row → ∀ c ∈ e.columns,
      Expr.Supplies row (inner.map (Expr.value row)) (Expr.inlined inner) c := by
    intro e he row hrow c hc
    have hmem : c ∈ Expr.columnsOfList outer := by
      rw [Expr.columnsOfList_eq]
      exact List.mem_flatMap.mpr ⟨e, he, hc⟩
    refine Expr.supplies_inlined (fun i hi => ?_) (hcolumns c hmem)
    obtain ⟨type, htype⟩ := hin.exists_type i hi
    exact htype.evaluates hrow
  rw [Expr.substituteList_eq]
  constructor
  · unfold Projects
    rw [List.forall₂_map_left_iff]
    refine ((List.forall₂_and_left _ _).mpr ⟨fun e he => he, hout⟩).imp fun e f hef => ?_
    exact Expr.HasType.substitute hef.2 fun row hrow =>
      ⟨_, Expr.admits_map_value hin hrow, hsupplies e hef.1 row hrow⟩
  · intro row hrow
    rw [List.map_map]
    refine List.map_congr_left fun e he => ?_
    exact Expr.value_substitute (hsupplies e he row hrow)

/-- A projection over a projection is one projection of the inlined expressions. -/
theorem project_project (hin : Projects inner b.rowType t) (hout : Projects outer t u)
    (hmerged : Projects merged b.rowType u)
    (h : ∀ row, b.rowType.Admits row →
      merged.map (Expr.value row) = outer.map (Expr.value (inner.map (Expr.value row)))) :
    (b.project inner t hin).project outer u hout = b.project merged u hmerged := by
  refine Bag.ext rfl ?_
  show Multiset.map _ (Multiset.map _ b.rows) = Multiset.map _ b.rows
  rw [Multiset.map_map]
  refine Multiset.map_congr rfl fun row hrow => ?_
  exact (h row (b.admits row hrow)).symm

/-- A projection to all columns in order, under the same row type, changes nothing. -/
theorem project_columns {exprs : List Expr} (hlen : exprs.length = b.rowType.width)
    (h : areColumnsFrom 0 exprs = true) (typed : Projects exprs b.rowType b.rowType) :
    b.project exprs b.rowType typed = b := by
  refine Bag.ext rfl ?_
  show Multiset.map _ b.rows = b.rows
  refine (Multiset.map_congr rfl fun row hrow => ?_).trans (Multiset.map_id b.rows)
  have hwidth := (b.admits row hrow).length_eq
  rw [map_of_areColumnsFrom (fun _ _ => Expr.value_column) h (by omega), List.drop_zero, id_eq]

end Projections

/-! ## Exchanged inputs -/

section Swap

variable {x y : Row} {n m : Nat}

/-- A condition with its columns moved evaluates on exchanged rows as it does without the
exchange. -/
theorem supplies_swapped (hx : x.length = n) (hy : y.length = m) {i : Column}
    (hi : i.index < n + m) :
    Expr.Supplies (y ++ x) (x ++ y)
      (fun i => .column { i with index := swapIndex n m i.index }) i :=
  Expr.supplies_moved (by rw [List.length_append]; omega) (getElem?_swapIndex hx hy hi)

variable (hc : c.HasType (l.rowType.join r.rowType false) .boolean)

include hc

/-- The condition of a join is one of the join with exchanged inputs once its columns are moved,
and holds there where it holds without the exchange. -/
theorem hasType_swapped :
    (c.mapColumns (swapIndex l.rowType.width r.rowType.width)).HasType
        (r.rowType.join l.rowType false) .boolean ∧
      ∀ x y, l.rowType.Admits x → r.rowType.Admits y →
        (c.mapColumns (swapIndex l.rowType.width r.rowType.width)).holds (y ++ x) =
          c.holds (x ++ y) := by
  have hwidth : (l.rowType.join r.rowType false).width = l.rowType.width + r.rowType.width :=
    RowType.width_join ..
  have hsupplies : ∀ x y, l.rowType.Admits x → r.rowType.Admits y → ∀ i ∈ c.columns,
      Expr.Supplies (y ++ x) (x ++ y) (fun i => .column { i with
        index := swapIndex l.rowType.width r.rowType.width i.index }) i :=
    fun x y hx hy i hi => supplies_swapped hx.length_eq hy.length_eq (hwidth ▸ hc.index_lt i hi)
  rw [Expr.mapColumns_eq_substitute]
  constructor
  · refine hc.substitute fun row hrow => ?_
    obtain ⟨y, x, rfl, hy, hx⟩ := hrow.of_join
    exact ⟨x ++ y, hx.append hy false, hsupplies x y hx hy⟩
  · intro x y hx hy
    unfold Expr.holds
    rw [Expr.value_substitute (hsupplies x y hx hy)]

omit hc in
/-- The columns in restored order are typed over the rows of the join with exchanged inputs. -/
theorem projects_restoreOrder :
    Projects (restoreOrder l.rowType.width r.rowType.width (l.rowType.join r.rowType false))
      (r.rowType.join l.rowType false) (l.rowType.join r.rowType false) := by
  have hwidth : (l.rowType.join r.rowType false).width = l.rowType.width + r.rowType.width :=
    RowType.width_join ..
  unfold Projects
  rw [List.forall₂_iff_get]
  refine ⟨length_restoreOrder _ _ _, fun i hi hi' row hrow => ?_⟩
  obtain ⟨y, x, rfl, hy, hx⟩ := hrow.of_join
  have hrestored := map_restoreOrder (f := Expr.value (y ++ x))
    (fun _ _ => Expr.value_column) hx.length_eq hy.length_eq hwidth
  have hlt : i < l.rowType.width + r.rowType.width := hwidth ▸ hi'
  have hpair := hx.append hy false
  have hlen : i < (x ++ y).length := by rw [hpair.length_eq, hwidth]; exact hlt
  constructor
  · -- the columns are read from the exchanged row, which is as wide
    rw [List.get_eq_getElem]
    simp only [restoreOrder, List.getElem_map, List.getElem_zipIdx, Nat.zero_add, Expr.col]
    have hplace := getElem?_swapIndex hx.length_eq hy.length_eq hlt
    rw [List.getElem?_eq_getElem hlen] at hplace
    exact Expr.evaluates_column.mpr (List.getElem?_eq_some_iff.mp hplace).1
  · have hvalue : ((restoreOrder l.rowType.width r.rowType.width
        (l.rowType.join r.rowType false)).get ⟨i, hi⟩).value (y ++ x) = (x ++ y)[i] := by
      rw [List.get_eq_getElem, ← List.getElem_map (Expr.value (y ++ x))]
      · exact List.getElem_of_eq hrestored _
      · rw [List.length_map]
        exact hi
    rw [hvalue]
    exact (List.forall₂_iff_get.mp hpair).2 i hi' hlen

/-- An inner join is the projection, in restored order, of the join with its inputs exchanged. -/
theorem project_join_swapped :
    (r.join .inner (c.mapColumns (swapIndex l.rowType.width r.rowType.width)) l).project
        (restoreOrder l.rowType.width r.rowType.width (l.rowType.join r.rowType false))
        (l.rowType.join r.rowType false) projects_restoreOrder =
      l.join .inner c r := by
  have hwidth : (l.rowType.join r.rowType false).width = l.rowType.width + r.rowType.width :=
    RowType.width_join ..
  obtain ⟨-, hholds⟩ := hasType_swapped hc
  refine Bag.ext rfl ?_
  show Multiset.map _ (Multiset.bind r.rows _) = Multiset.bind l.rows _
  simp only [JoinType.pairs_inner]
  rw [Multiset.map_bind]
  -- both sides are the pairs that meet the condition, filtered once all of them are made
  have hpairs : ∀ y ∈ r.rows, Multiset.map
      (fun row => (restoreOrder l.rowType.width r.rowType.width
        (l.rowType.join r.rowType false)).map (Expr.value row))
      ((l.rows.map (y ++ ·)).filter fun row =>
        (c.mapColumns (swapIndex l.rowType.width r.rowType.width)).holds row = true) =
      (l.rows.map fun x => x ++ y).filter fun row => c.holds row = true := by
    intro y hy
    rw [Multiset.filter_map, Multiset.map_map, Multiset.filter_map]
    have hfilter : (l.rows.filter ((fun row =>
          (c.mapColumns (swapIndex l.rowType.width r.rowType.width)).holds row = true) ∘
            (y ++ ·))) =
        l.rows.filter ((fun row => c.holds row = true) ∘ fun x => x ++ y) := by
      refine Multiset.filter_congr fun x hx => ?_
      rw [Function.comp_apply, Function.comp_apply,
        hholds x y (l.admits x hx) (r.admits y hy)]
    rw [hfilter]
    refine Multiset.map_congr rfl fun x hx => ?_
    have hx := l.admits x (Multiset.mem_of_mem_filter hx)
    exact map_restoreOrder (fun _ _ => Expr.value_column) hx.length_eq (r.admits y hy).length_eq
      hwidth
  rw [Multiset.bind_congr hpairs, ← Multiset.filter_bind, Multiset.bind_map_comm,
    Multiset.filter_bind]

end Swap

end Bag

end QueryPlanner
