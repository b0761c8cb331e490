/-
# Projections that are merged and dropped

A projection over a projection is composed by inlining, which comes to what the two come to one
after the other, errors included, and fails just where a column is out of range. The columns of a
row, in order and all of them, are the row. As every group stands on a logical member, there is
always something to propose in place of a projection that changes nothing.

* `Expr.exists_inlineList_iff` : inlining succeeds where all columns are in range;
* `Expr.map_eval_of_inlineList` : inlined expressions come to what the outer ones do;
* `Rule.mapM_eval_of_isTrivial` : a trivial projection of a row is the row;
* `Rule.MergesTo` : what may be proposed for a projection over another one;
* `Search.Attained.merges_and_drops` : what is proposed at any time of a search.
-/
import QueryPlanner.Proofs.Columns
import QueryPlanner.Proofs.Search.Grounding

namespace QueryPlanner

/-! ## Inlining -/

namespace Expr

variable {inner outer merged : List Expr} {row vals : Row}

mutual

/-- An expression can be inlined if all its columns are in range. -/
theorem IsWithin.exists_inline : ∀ {e : Expr}, e.IsWithin inner.length →
    ∃ e', e.inline inner = some e'
  | column c, h => ⟨_, List.getElem?_eq_getElem (h c (List.mem_singleton_self c))⟩
  | literal v, _ => ⟨_, rfl⟩
  | binary op l r, h => by
      have hl : l.IsWithin inner.length := fun c hc => h c (List.mem_append_left _ hc)
      have hr : r.IsWithin inner.length := fun c hc => h c (List.mem_append_right _ hc)
      obtain ⟨l', hl'⟩ := hl.exists_inline
      obtain ⟨r', hr'⟩ := hr.exists_inline
      rw [inline, hl', hr']
      exact ⟨_, rfl⟩
  | unary op e, h => by
      have he : e.IsWithin inner.length := h
      obtain ⟨e', he'⟩ := he.exists_inline
      rw [inline, he']
      exact ⟨_, rfl⟩
  | call name args, h => by
      obtain ⟨args', hargs'⟩ := exists_inlineList args h
      rw [inline, hargs']
      exact ⟨_, rfl⟩
  | and es, h => by
      obtain ⟨es', hes'⟩ := exists_inlineList es h
      rw [inline, hes']
      exact ⟨_, rfl⟩
  | or es, h => by
      obtain ⟨es', hes'⟩ := exists_inlineList es h
      rw [inline, hes']
      exact ⟨_, rfl⟩

theorem exists_inlineList : ∀ es : List Expr, (∀ c ∈ columnsOfList es, c.index < inner.length) →
    ∃ es', inlineList inner es = some es'
  | [], _ => ⟨_, rfl⟩
  | e :: es, h => by
      have he : e.IsWithin inner.length := fun c hc => h c (List.mem_append_left _ hc)
      obtain ⟨e', he'⟩ := he.exists_inline
      obtain ⟨es', hes'⟩ := exists_inlineList es fun c hc => h c (List.mem_append_right _ hc)
      rw [inlineList, he', hes']
      exact ⟨_, rfl⟩

end

/-- Where expressions cannot be inlined, one of them has a column out of range. -/
theorem exists_of_inlineList_eq_none (h : inlineList inner outer = none) :
    ∃ e ∈ outer, ¬ e.IsWithin inner.length := by
  by_contra hnone
  have hwithin : ∀ e ∈ outer, e.IsWithin inner.length := fun e he =>
    Classical.not_not.mp fun hnot => hnone ⟨e, he, hnot⟩
  obtain ⟨merged, hmerged⟩ := exists_inlineList outer (forall_mem_columnsOfList.mpr hwithin)
  rw [hmerged] at h
  cases h

/-- Over a row for which the inner expressions have values, inlined expressions come to what the
outer ones come to over these values, be it a value or an error. -/
theorem map_eval_of_inlineList (h : inlineList inner outer = some merged)
    (hvals : inner.mapM (eval row) = .ok vals) : merged.map (eval row) = outer.map (eval vals) := by
  obtain ⟨rfl, hcolumns⟩ := inlineList_eq_substituteList inner h
  rw [substituteList_eq, List.map_map]
  refine List.map_congr_left fun e he => eval_substitute e fun c hc => ?_
  have hlt : c.index < inner.length := by
    refine hcolumns c ?_
    rw [columnsOfList_eq]
    exact List.mem_flatMap.mpr ⟨e, he, hc⟩
  -- what is put in the place of the column has the value that stands there
  have hplace := congrArg (·[c.index]?) (mapM_eq_ok_iff.mp hvals)
  simp only [List.getElem?_map, List.getElem?_eq_getElem hlt, Option.map_some] at hplace
  obtain ⟨v, hv, heval⟩ := Option.map_eq_some_iff.mp hplace.symm
  rw [inlined, List.getElem?_eq_getElem hlt, Option.getD_some, ← heval, eval, hv]

end Expr

namespace Rule

open QueryPlanner.Expr Memo

variable {ν : Type} {memo : Memo ν} {exprs inner outer : List Expr} {t : RowType} {g : GroupId}

/-! ## Trivial projections -/

/-- A trivial projection of a row of the width of its input is the row. -/
theorem mapM_eval_of_isTrivial (h : isTrivial memo exprs t g = true) {row : Row}
    (hrow : row.length = (memo.group g).rowType.width) : exprs.mapM (eval row) = .ok row := by
  unfold isTrivial at h
  simp only [Bool.and_eq_true, decide_eq_true_eq] at h
  obtain ⟨⟨hlen, -⟩, hcolumns⟩ := h
  have hplaces : exprs.map (eval row) = (row.map .ok).drop 0 := by
    refine map_of_areColumnsFrom (fun c v hv => ?_) hcolumns ?_
    · rw [List.getElem?_map] at hv
      obtain ⟨w, hw, rfl⟩ := Option.map_eq_some_iff.mp hv
      rw [eval, hw]
    · rw [Nat.zero_add, hlen, List.length_map, hrow]
  rw [mapM_eq_ok_iff, hplaces, List.drop_zero]

/-- A group that exists has members to propose. -/
theorem alternatives_ne_nil (h : memo.Settled) (hgrounded : memo.Grounded)
    (hg : g < memo.groups.size) : alternatives memo g ≠ [] := by
  obtain ⟨m, hm⟩ := hgrounded (memo.leader g) (h.led.parents_leader hg)
  have hlisted : m ∈ (memo.group g).members := by
    rw [← members_congr (h.led.leader_leader g)]
    exact hm.mem
  have hmem : memo.member m ∈ logicalMembers memo g :=
    List.mem_filter.mpr ⟨List.mem_map_of_mem hlisted, hm.logical⟩
  exact List.ne_nil_of_mem (List.mem_map_of_mem hmem)

/-- A projection is left out only if its row type is that of its input and it gives every row of the
input's width as it is. -/
theorem of_mem_dropProjection {catalog : Catalog ν} {m : Member} {p : Proposal}
    (hp : p ∈ dropProjection.propose catalog memo m) {t : RowType}
    (hop : m.op = .project exprs t) (hchildren : m.children = [g]) :
    t = (memo.group g).rowType ∧
      ∀ row : Row, row.length = (memo.group g).rowType.width → exprs.mapM (eval row) = .ok row := by
  unfold dropProjection at hp
  dsimp only at hp
  rw [hop, hchildren] at hp
  dsimp only at hp
  split at hp
  · next htrivial => exact ⟨rowType_of_isTrivial htrivial, fun _ => mapM_eval_of_isTrivial htrivial⟩
  · exact absurd hp List.not_mem_nil

/-! ## Projections over projections -/

/-- What may be proposed for the projection to `outer` over the projection of a group to `inner`: one
projection, which comes to what `outer` comes to over the values of `inner`; the group's own members,
of which there are some, where `outer` gives the rows back; or nothing, where `outer` reads what is
not there. -/
inductive MergesTo (memo : Memo ν) (outer : List Expr) (t : RowType) (inner : List Expr)
    (x : GroupId) : List Proposal → Prop
  | composed {merged : List Expr} (h : ∀ row vals, row.length = (memo.group x).rowType.width →
      inner.mapM (eval row) = .ok vals → merged.map (eval row) = outer.map (eval vals)) :
      MergesTo memo outer t inner x [.substitution (.project merged t) [x]]
  | dropped (htype : t = (memo.group x).rowType)
      (h : ∀ row vals, row.length = (memo.group x).rowType.width →
        inner.mapM (eval row) = .ok vals → outer.mapM (eval vals) = .ok row)
      (hsome : alternatives memo x ≠ []) : MergesTo memo outer t inner x (alternatives memo x)
  | outOfRange {e : Expr} (he : e ∈ outer) (hout : ¬ e.IsWithin inner.length) :
      MergesTo memo outer t inner x []

/-- A projection is merged into a projection below it. -/
theorem mergesTo_mergeInto (h : memo.Settled) (hgrounded : memo.Grounded) {below : Member}
    {t' : RowType} (hop : below.op = .project inner t') (hchildren : below.children = [g])
    (hg : g < memo.groups.size) (outer : List Expr) (t : RowType) :
    MergesTo memo outer t inner g (mergeInto memo outer t below) := by
  unfold mergeInto
  rw [hop, hchildren]
  dsimp only
  split
  · next hnone =>
      obtain ⟨e, he, hout⟩ := exists_of_inlineList_eq_none hnone
      exact .outOfRange he hout
  · next merged hmerged =>
      split
      · next htrivial =>
          refine .dropped (rowType_of_isTrivial htrivial) (fun row vals hrow hvals => ?_)
            (alternatives_ne_nil h hgrounded hg)
          -- the merged projection gives the row back, and comes to what the outer one does
          rw [mapM_eq_ok_iff, ← map_eval_of_inlineList hmerged hvals, ← mapM_eq_ok_iff]
          exact mapM_eval_of_isTrivial htrivial hrow
      · exact .composed fun row vals _ => map_eval_of_inlineList hmerged

end Rule

/-! ## Searches -/

namespace Search

open Memo Rule

variable {ν : Type} [Quantity ν] {planner : Planner ν} {memo : Memo ν}

/-- At any time of a search, what is proposed for a projection over another one comes to what the two
come to, or is the input of both where they change nothing, and there is nothing only where a column
is out of range. A projection is left out only if it gives every row of its input back. -/
theorem Attained.merges_and_drops (h : Attained planner memo) {i : MemberId}
    (hi : i < memo.members.size) {outer : List Expr} {t : RowType}
    (hop : (memo.member i).op = .project outer t) (catalog : Catalog ν) :
    ∃ child, (memo.member i).children = [child] ∧
      mergeProjections.propose catalog memo (memo.member i) =
        (logicalMembers memo child).flatMap (mergeInto memo outer t) ∧
      (∀ below ∈ logicalMembers memo child, ∀ inner t', below.op = .project inner t' →
        ∃ x, below.children = [x] ∧
          MergesTo memo outer t inner x (mergeInto memo outer t below)) ∧
      (dropProjection.propose catalog memo (memo.member i) ≠ [] →
        t = (memo.group child).rowType ∧ ∀ row : Row,
          row.length = (memo.group child).rowType.width →
            outer.mapM (Expr.eval row) = .ok row) := by
  have hsettled := h.settled
  have hlength := (hsettled.member i hi).1.length_children
  rw [hop] at hlength
  obtain ⟨child, hchildren⟩ := List.length_eq_one_iff.mp hlength
  refine ⟨child, hchildren, ?_, fun below hbelow inner t' hinner => ?_, fun hfires => ?_⟩
  · unfold mergeProjections
    dsimp only
    rw [hop, hchildren]
  · obtain ⟨j, -, hj, rfl, -⟩ := exists_of_mem_logicalMembers hsettled hbelow
    have hfits := (hsettled.member j hj).1
    have hlength := hfits.length_children
    rw [hinner] at hlength
    obtain ⟨x, hx⟩ := List.length_eq_one_iff.mp hlength
    refine ⟨x, hx, mergesTo_mergeInto hsettled h.grounded hinner hx ?_ outer t⟩
    exact hfits.children_lt x (hx ▸ List.mem_singleton_self x)
  · obtain ⟨p, hp⟩ := List.exists_mem_of_ne_nil _ hfires
    exact of_mem_dropProjection hp hop hchildren

/-- A table of two columns, its columns in the other order, and these in the other order again. -/
def turnedTwice : Memo Float :=
  let x : Field := ⟨"x", .int64, true⟩
  let y : Field := ⟨"y", .utf8, true⟩
  let scanned := ((Memo.addLogical (.scan ⟨"s", "t"⟩ ⟨[x, y]⟩) []).run.run (.empty : Memo Float)).2
  let turned :=
    ((Memo.addLogical (.project [.col "y" 1, .col "x" 0] ⟨[y, x]⟩) [0]).run.run scanned).2
  ((Memo.addLogical (.project [.col "x" 1, .col "y" 0] ⟨[x, y]⟩) [1]).run.run turned).2

theorem logicallyBuilt_turnedTwice : LogicallyBuilt turnedTwice := by
  refine ((LogicallyBuilt.empty.addLogical _ ?_).addLogical _ ?_).addLogical _ ?_
  all_goals decide +kernel

/-- The table itself is proposed for the columns that were turned round twice. -/
theorem Attained.merges_and_drops_turnedTwice :
    mergeProjections.propose {} turnedTwice (turnedTwice.member 2) = alternatives turnedTwice 0 ∧
      MergesTo turnedTwice [.col "x" 1, .col "y" 0] (turnedTwice.group 0).rowType
        [.col "y" 1, .col "x" 0] 0 (alternatives turnedTwice 0) := by
  have hattained : Attained standardPlanner turnedTwice := .start logicallyBuilt_turnedTwice
  have hi : 2 < turnedTwice.members.size := by decide +kernel
  obtain ⟨child, hchildren, hpropose, hmerges, -⟩ := hattained.merges_and_drops hi rfl {}
  have hchild : [1] = [child] := hchildren
  cases hchild
  have hbelow : turnedTwice.member 1 ∈ logicalMembers turnedTwice 1 :=
    List.mem_singleton_self (turnedTwice.member 1)
  obtain ⟨x, hx, hmerged⟩ := hmerges _ hbelow _ _ rfl
  have hx : [0] = [x] := hx
  cases hx
  exact ⟨hpropose, hmerged⟩

end Search

end QueryPlanner
