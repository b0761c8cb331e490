/-
# The rows of pipelines

What a pipeline answers is what its operators make of the answers of its inputs, one after another.
Over rows on which their expressions evaluate, the operators make rows and no errors.

* `JoinType.pairRows`, `SortKey.Sorts` : what joins and sorts make of rows;
* `Bag.Lists` : the rows of a bag, in some order;
* `forEach_keep`, `joinRow_eq`, `exists_sortRows` : what is made of rows where all expressions evaluate;
* `Pipeline.answers` : what a pipeline answers, with one lemma for each kind of pipeline.
-/
import QueryPlanner.Proofs.Bag
import QueryPlanner.Proofs.Execution.Answers
import QueryPlanner.Proofs.Sorting

namespace QueryPlanner

/-! ## Rows in order -/

/-- The rows that a left row makes with the right rows, in their order. -/
def JoinType.pairRows (type : JoinType) (condition : Expr) (padding : Nat) (right : List Row)
    (left : Row) : List Row :=
  let matched := (right.map (left ++ ·)).filter condition.holds
  if matched.isEmpty && type == .left then [left ++ List.replicate padding .null] else matched

/-- In no particular order, they are the pairs of the join. -/
theorem JoinType.coe_pairRows (type : JoinType) (c : Expr) (padding : Nat) (right : List Row)
    (left : Row) : (type.pairRows c padding right left : Multiset Row) =
      type.pairs c padding right left := by
  unfold pairRows pairs
  simp only [Multiset.map_coe, Multiset.filter_coe, Multiset.coe_eq_zero]
  have hmatched : (right.map (left ++ ·)).filter (fun row => decide (c.holds row = true)) =
      (right.map (left ++ ·)).filter c.holds :=
    List.filter_congr fun row _ => Bool.decide_eq_true
  rw [hmatched]
  -- only a left join without a match makes a row of its own
  by_cases h : type = .left ∧ (right.map (left ++ ·)).filter c.holds = []
  · rw [if_pos h, h.1, h.2]
    rfl
  · rw [if_neg h, if_neg]
    rw [Bool.and_eq_true, List.isEmpty_iff, beq_iff_eq]
    exact fun hboth => h ⟨hboth.2, hboth.1⟩

namespace Bag

variable {b l r : Bag} {rows ls rs : List Row}

/-- The rows of a bag, in some order. -/
def Lists (b : Bag) (rows : List Row) : Prop := (rows : Multiset Row) = b.rows

theorem Lists.admits (h : b.Lists rows) : ∀ row ∈ rows, b.rowType.Admits row := by
  intro row hrow
  refine b.admits row ?_
  rw [← h]
  exact hrow

/-- Any two lists of the rows of a bag are permutations of each other. -/
theorem Lists.perm (h : b.Lists rows) (h' : b.Lists ls) : rows.Perm ls :=
  Multiset.coe_eq_coe.mp (h.trans h'.symm)

theorem Lists.of_perm (h : b.Lists rows) (hperm : ls.Perm rows) : b.Lists ls :=
  (Multiset.coe_eq_coe.mpr hperm).trans h

theorem Lists.filter (h : b.Lists rows) (p : Expr) : (b.filter p).Lists (rows.filter p.holds) := by
  show _ = Multiset.filter _ b.rows
  rw [← h, Multiset.filter_coe, List.filter_congr fun row _ => Bool.decide_eq_true]

theorem Lists.project (h : b.Lists rows) {exprs : List Expr} {out : RowType}
    (typed : Projects exprs b.rowType out) :
    (b.project exprs out typed).Lists (rows.map fun row => exprs.map (Expr.value row)) := by
  show _ = Multiset.map _ b.rows
  rw [← h, Multiset.map_coe]

theorem Lists.join (hl : l.Lists ls) (hr : r.Lists rs) (type : JoinType) (c : Expr) :
    (l.join type c r).Lists (ls.flatMap (type.pairRows c r.rowType.width rs)) := by
  show _ = Multiset.bind l.rows _
  rw [← hl, ← hr, ← Multiset.coe_bind]
  exact Multiset.bind_congr fun left _ => JoinType.coe_pairRows type c _ rs left

end Bag

/-! ## Rows on which expressions evaluate -/

namespace Answers

/-- Rows of which those are kept for which the outcome of a predicate is TRUE. -/
theorem forEach_keep {p : Expr} {outcome : Row → Scalar.Outcome} {rows : List Row}
    (h : ∀ row ∈ rows, outcome row = .ok (p.value row)) :
    forEach (fun row => keep row (outcome row)) (rows.map .ok) = (rows.filter p.holds).map .ok := by
  rw [forEach_map_ok]
  induction rows with
  | nil => rfl
  | cons row rest ih =>
      obtain ⟨hrow, hrest⟩ := List.forall_mem_cons.mp h
      have hkeep : keep row (outcome row) = if p.holds row then [.ok row] else [] := by
        unfold keep
        rw [hrow, after_ok]
        rfl
      rw [List.flatMap_cons, ih hrest, hkeep, List.filter_cons]
      by_cases hholds : p.holds row = true
      · rw [if_pos hholds, if_pos hholds, List.map_cons, List.singleton_append]
      · rw [if_neg hholds, if_neg hholds, List.nil_append]

/-- Rows for each of which one other row is computed. -/
theorem forEach_compute {compute : Row → Except ExecutionError Row} {f : Row → Row}
    {rows : List Row} (h : ∀ row ∈ rows, compute row = .ok (f row)) :
    forEach (fun row => [compute row]) (rows.map .ok) = (rows.map f).map .ok := by
  rw [forEach_map_ok, List.map_map, List.map_eq_flatMap]
  exact List.flatMap_congr fun row hrow => by rw [h row hrow]; rfl

end Answers

namespace RowStream

variable {right : List Row} {c : Expr}

/-- A left row matches the right rows with which its condition is TRUE. -/
theorem matchesAfter_eq {left : Row} (acc : List Row)
    (h : ∀ row ∈ right, c.Evaluates (left ++ row)) :
    matchesAfter c left acc right =
      .ok (acc.reverse ++ (right.map (left ++ ·)).filter c.holds) := by
  induction right generalizing acc with
  | nil => rw [matchesAfter, List.map_nil, List.filter_nil, List.append_nil]
  | cons row rest ih =>
      obtain ⟨hrow, hrest⟩ := List.forall_mem_cons.mp h
      have hnext := ih (if c.holds (left ++ row) then (left ++ row) :: acc else acc) hrest
      rw [matchesAfter, hrow.eval, List.map_cons, List.filter_cons]
      refine hnext.trans ?_
      by_cases hholds : c.holds (left ++ row) = true
      · simp [hholds]
      · simp [hholds]

/-- What a left row makes with the right rows. -/
theorem joinRow_eq (type : JoinType) (padding : Nat) {left : Row}
    (h : ∀ row ∈ right, c.Evaluates (left ++ row)) :
    joinRow type c padding right left = (type.pairRows c padding right left).map .ok := by
  unfold joinRow JoinType.pairRows
  rw [matchesAfter_eq [] h, List.reverse_nil, List.nil_append]
  dsimp only
  split
  · rfl
  · rfl

/-- What several left rows make with the right rows. -/
theorem forEach_joinRow {type : JoinType} {padding : Nat} {rows : List Row}
    (h : ∀ left ∈ rows, ∀ row ∈ right, c.Evaluates (left ++ row)) :
    Answers.forEach (joinRow type c padding right) (rows.map .ok) =
      (rows.flatMap (type.pairRows c padding right)).map .ok := by
  rw [Answers.forEach_map_ok, List.map_flatMap]
  exact List.flatMap_congr fun left hleft => joinRow_eq type padding (h left hleft)

end RowStream

namespace SortKey

variable {order : List SortKey} {rows sorted sorted' : List Row}

/-- Sorting rows beside their keys is a permutation. -/
theorem sortKeyed_perm {keyed sorted : List (List Scalar × Row)}
    (h : sortKeyed order keyed = some sorted) : sorted.Perm keyed :=
  Sorting.sort_perm h

/-- A row beside the values of its keys. -/
def valued (order : List SortKey) (row : Row) : List Scalar × Row :=
  (order.map fun k => k.expr.value row, row)

theorem map_snd_valued (order : List SortKey) (rows : List Row) :
    (rows.map (valued order)).map Prod.snd = rows := by
  rw [List.map_map]
  exact List.map_id rows

/-- The values of each key on some rows are coherent. -/
def AreCoherent (order : List SortKey) (rows : List Row) : Prop :=
  ∀ k ∈ order, Scalar.Coherent fun v => ∃ row ∈ rows, k.expr.value row = v

/-- Rows in the order of the values of their keys, where rows of equal keys stay as they were. -/
def Sorts (order : List SortKey) (rows sorted : List Row) : Prop :=
  IsStableSort order (rows.map (valued order)) (sorted.map (valued order))

theorem Sorts.perm (h : Sorts order rows sorted) : sorted.Perm rows := by
  have hperm := (IsStableSort.perm h).map Prod.snd
  rwa [map_snd_valued, map_snd_valued] at hperm

/-- Rows are put in order in one way only. -/
theorem Sorts.unique (h : Sorts order rows sorted) (h' : Sorts order rows sorted') :
    sorted = sorted' := by
  have heq := congrArg (List.map Prod.snd) (IsStableSort.unique h h')
  rwa [map_snd_valued, map_snd_valued] at heq

/-- What is a permutation of rows beside their keys is some rows beside theirs. -/
theorem map_valued_of_perm {keyed : List (List Scalar × Row)}
    (h : keyed.Perm (rows.map (valued order))) :
    (keyed.map Prod.snd).map (valued order) = keyed := by
  rw [List.map_map]
  refine (List.map_congr_left fun x hx => ?_).trans (List.map_id keyed)
  obtain ⟨row, -, rfl⟩ := List.mem_map.mp (h.mem_iff.mp hx)
  rfl

/-- The order of some rows is transitive if the values of each key on them are coherent. -/
theorem AreCoherent.isTransitiveOn (h : AreCoherent order rows) :
    IsTransitiveOn (compareKeys order) fun as => ∃ row ∈ rows, (valued order row).1 = as := by
  have hcolumns := @isTransitiveOn_compareKeys
    (order.map fun k => (k, fun v => ∃ row ∈ rows, k.expr.value row = v)) (List.forall_mem_map.mpr h)
  rw [List.map_map] at hcolumns
  change IsTransitiveOn (compareKeys (order.map id)) _ at hcolumns
  rw [List.map_id] at hcolumns
  refine hcolumns.mono ?_
  rintro _ ⟨row, hrow, rfl⟩
  refine List.forall₂_map_left_iff.mpr (List.forall₂_map_right_iff.mpr ?_)
  exact List.forall₂_same.mpr fun k _ => ⟨row, hrow, rfl⟩

/-- Keys of one type each have coherent values. -/
theorem areCoherent_of_typed {t : RowType} (typed : ∀ k ∈ order, ∃ type, k.expr.HasType t type)
    (h : ∀ row ∈ rows, t.Admits row) : AreCoherent order rows := by
  intro k hk
  obtain ⟨type, htype⟩ := typed k hk
  refine (Scalar.coherent_admits type).mono ?_
  rintro _ ⟨row, hrow, rfl⟩
  exact (htype row (h row hrow)).2

/-- Rows on which all keys have values are sorted beside these. -/
theorem sortRows_eq (h : ∀ row ∈ rows, ∀ k ∈ order, k.expr.eval row = .ok (k.expr.value row)) :
    sortRows order rows = match sortKeyed order (rows.map (valued order)) with
      | some sorted => .ok (sorted.map Prod.snd)
      | none => .error .contradictoryOrder := by
  have hkeyed : (rows.mapM fun row => do
      let key ← order.mapM fun k => k.expr.eval row
      pure (key, row) : Except ExecutionError _) = .ok (rows.map (valued order)) := by
    refine mapM_eq_ok_map fun row hrow => ?_
    rw [mapM_eq_ok_map (h row hrow)]
    rfl
  rw [sortRows, hkeyed]
  rfl

/-- Rows on which all keys have values, and coherent ones, can be sorted. -/
theorem exists_sortRows (h : ∀ row ∈ rows, ∀ k ∈ order, k.expr.eval row = .ok (k.expr.value row))
    (hcoherent : AreCoherent order rows) :
    ∃ sorted, sortRows order rows = .ok sorted ∧ Sorts order rows sorted := by
  obtain ⟨keyed, hkeyed, hstable⟩ := isStableSort_sortKeyed hcoherent.isTransitiveOn
    (List.forall_mem_map.mpr fun row hrow => ⟨row, hrow, rfl⟩)
  refine ⟨keyed.map Prod.snd, ?_, ?_⟩
  · rw [sortRows_eq h, hkeyed]
  · unfold Sorts
    rwa [map_valued_of_perm hstable.perm]

end SortKey

/-! ## Cursors -/

namespace Cursor

variable {c : Cursor} {as : Answers}

/-- The cursor of some rows has them left, and no errors. -/
theorem toList_ofRows (rows : List Row) : (ofRows rows).toList = rows.map .ok :=
  RowStream.toList_ofRows rows

/-- No more is left than the bound of the cursor says. -/
theorem length_toList_le (c : Cursor) : c.toList.length ≤ c.bound := by
  unfold toList
  rw [RowStream.length_toList]
  exact c.length_le

theorem isDone_eq (h : c.toList = as) : c.isDone = as.isEmpty := by
  unfold toList at h
  unfold isDone
  cases hrows : c.rows.get with
  | done =>
      rw [hrows, RowStream.toList] at h
      subst h
      rfl
  | next row rest =>
      rw [hrows, RowStream.toList] at h
      subst h
      rfl

/-- Taking what is next leaves the rest. -/
theorem exists_next? {x : Except ExecutionError Row} (h : c.toList = x :: as) :
    ∃ rest, c.next? = some (x, rest) ∧ rest.toList = as := by
  unfold next?
  split
  · next hdone =>
      unfold toList at h
      rw [hdone] at h
      cases h
  · next y rest hnext =>
      unfold toList at h
      rw [hnext, RowStream.toList, List.cons.injEq] at h
      obtain ⟨rfl, hrest⟩ := h
      exact ⟨_, rfl, hrest⟩

end Cursor

/-! ## Pipelines -/

namespace Pipeline

open Answers

variable {source : RowSource} {input left right : Pipeline}

/-- What a pipeline answers, if it can be opened. -/
def answers (source : RowSource) (p : Pipeline) : Except ExecutionError Answers :=
  (p.cursor source).map Cursor.toList

theorem answers_values (rows : List Row) : (values rows).answers source = .ok (rows.map .ok) := by
  show (Except.ok (Cursor.ofRows rows)).map Cursor.toList = _
  exact congrArg Except.ok (Cursor.toList_ofRows rows)

/-- The rows of a table, wherever it is. -/
theorem map_ofRows (r : Except ExecutionError (List Row)) :
    ((do pure (.ofRows (← r)) : Except ExecutionError Cursor)).map Cursor.toList =
      r.map (List.map .ok) := by
  cases r with
  | error e => rfl
  | ok rows => exact congrArg Except.ok (Cursor.toList_ofRows rows)

theorem answers_scan (table : TableName) :
    (scan table).answers source = (source.rows table).map (List.map .ok) := by
  show (do pure (.ofRows (← source.rows table)) : Except ExecutionError Cursor).map _ = _
  exact map_ofRows _

theorem answers_fetch (table : TableName) :
    (fetch table).answers source = (source.rows table).map (List.map .ok) := by
  show (do pure (.ofRows (← source.rows table)) : Except ExecutionError Cursor).map _ = _
  exact map_ofRows _

theorem answers_filter (input : Pipeline) (p : Expr) :
    (input.filter p).answers source =
      (input.answers source).map (forEach fun row => keep row (p.eval row)) := by
  unfold answers
  show (do pure ((← input.cursor source).filter p) : Except ExecutionError Cursor).map _ = _
  cases input.cursor source with
  | error e => rfl
  | ok c => exact congrArg Except.ok (RowStream.toList_filter_eq p c.rows.get)

theorem answers_project (input : Pipeline) (exprs : List Expr) :
    (input.project exprs).answers source =
      (input.answers source).map (forEach fun row => [exprs.mapM (Expr.eval row)]) := by
  unfold answers
  show (do pure ((← input.cursor source).project exprs) : Except ExecutionError Cursor).map _ = _
  cases input.cursor source with
  | error e => rfl
  | ok c => exact congrArg Except.ok (RowStream.toList_project_eq exprs c.rows.get)

/-- The right side of a join is asked for all of its rows first. -/
theorem answers_join (left right : Pipeline) (type : JoinType) (c : Expr) (padding : Nat) :
    (left.join right type c padding).answers source =
      ((right.answers source).bind all).bind fun rows =>
        (left.answers source).map (forEach (RowStream.joinRow type c padding rows)) := by
  unfold answers
  show (do
    let rows ← (← right.cursor source).all
    pure ((← left.cursor source).join type c padding rows) : Except ExecutionError Cursor).map _ = _
  cases right.cursor source with
  | error e => rfl
  | ok d =>
      show Except.map _ (d.all >>= _) = (all d.toList).bind _
      rw [Cursor.all_eq]
      cases all d.toList with
      | error e => rfl
      | ok rows =>
          cases left.cursor source with
          | error e => rfl
          | ok c' => exact congrArg Except.ok (RowStream.toList_join_eq type c padding rows c'.rows.get)

/-- So is the input of a sort. -/
theorem answers_sort (input : Pipeline) (order : List SortKey) :
    (input.sort order).answers source =
      ((input.answers source).bind all).bind fun rows =>
        (SortKey.sortRows order rows).map (List.map .ok) := by
  unfold answers
  show (do
    let rows ← (← input.cursor source).all
    pure (.ofRows (← SortKey.sortRows order rows)) : Except ExecutionError Cursor).map _ = _
  cases input.cursor source with
  | error e => rfl
  | ok c =>
      show Except.map _ (c.all >>= _) = (all c.toList).bind _
      rw [Cursor.all_eq]
      cases all c.toList with
      | error e => rfl
      | ok rows => exact map_ofRows (SortKey.sortRows order rows)

theorem answers_limit (input : Pipeline) (offset count : Nat) :
    (input.limit offset count).answers source =
      (input.answers source).map fun as => (as.drop offset).take count := by
  unfold answers
  show (do pure ((← input.cursor source).limit offset count) : Except ExecutionError Cursor).map _ = _
  cases input.cursor source with
  | error e => rfl
  | ok c =>
      refine congrArg Except.ok ?_
      show (RowStream.take count fun _ => c.rows.get.drop offset).toList = _
      rw [RowStream.toList_take, RowStream.toList_drop]
      rfl

/-- A program that is run by itself answers with the rows that it emits. -/
theorem answers_materialize (program : List Statement) :
    (materialize program).answers source = (runProgram source program).map (List.map .ok) := by
  unfold answers
  rw [cursor, runProgram]
  rcases (execAll source program).run.run {} with ⟨e | ⟨⟩, m⟩
  · rfl
  · exact congrArg Except.ok (Cursor.toList_ofRows _)

/-- All rows of a pipeline are those that it answers with. -/
theorem run_pipeline (p : Pipeline) :
    (Executable.pipeline p).run source = (p.answers source).bind all := by
  unfold answers
  rw [Executable.run]
  cases p.cursor source with
  | error e => rfl
  | ok c => exact c.all_eq

end Pipeline

end QueryPlanner
