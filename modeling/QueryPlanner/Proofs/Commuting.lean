/-
# Joins with exchanged inputs

A join with its inputs exchanged pairs the same rows the other way round, and the projection above
it puts their columns back. So the rows are those of the join, in the order of the other nested loop.
The columns of the projection are in every row, so that nothing fails but the condition, and that
fails on some pair of the one loop just if it does in the other.

* `Expr.eval_swapped`, `Expr.mapM_eval_restoreOrder` : the condition and the projection on one pair;
* `Expr.selects_swapped_iff` : the condition on all pairs;
* `Pipeline.Rearranges` : the rows of another pipeline in some order, or an error where it has one;
* `Pipeline.rearranges_join` : a join by the projection of the join with exchanged inputs;
* `Expr.canonical_swapped`, `Rule.inlineList_restoreOrder` : exchanging the inputs twice;
* `Rule.commuteJoin_rearranges` : everything that is proposed for an inner join.
-/
import QueryPlanner.Proofs.Filters
import QueryPlanner.Proofs.Limits
import QueryPlanner.Proofs.Memo.Calls
import QueryPlanner.Proofs.Plan.Widths

namespace QueryPlanner

/-! ## Pairs -/

/-- Two nested loops make the same pairs whichever is the outer one. -/
theorem perm_flatMap_map {α β γ : Type} (f : α → β → γ) (as : List α) (bs : List β) :
    (bs.flatMap fun b => as.map fun a => f a b).Perm (as.flatMap fun a => bs.map (f a)) := by
  rw [← Multiset.coe_eq_coe, ← Multiset.coe_bind, ← Multiset.coe_bind]
  simp only [← Multiset.map_coe]
  exact Multiset.bind_map_comm ..

namespace Expr

open Rule

variable {c : Expr} {x y : Row} {n m : Nat} {ls rs rows : List Row}

/-- A condition with its columns moved comes on an exchanged pair to what it does without the
exchange. -/
theorem eval_swapped (hc : c.IsWithin (n + m)) (hx : x.length = n) (hy : y.length = m) :
    (c.mapColumns (swapIndex n m)).eval (y ++ x) = c.eval (x ++ y) := by
  rw [mapColumns_eq_substitute]
  refine eval_substitute c fun i hi => (supplies_moved ?_ ?_).2
  · rw [List.length_append, hx, hy]
    exact hc i hi
  · exact getElem?_swapIndex hx hy (hc i hi)

/-- The columns in restored order have values in every row that is wide enough, which are those of the
row turned round. -/
theorem mapM_eval_restoreOrder {row : Row} (hrow : row.length = m + n) {out : RowType}
    (hout : out.width = n + m) : (restoreOrder n m out).mapM (eval row) = .ok (row.rotate m) := by
  obtain ⟨y, x, rfl, hy, hx⟩ : ∃ y x, row = y ++ x ∧ y.length = m ∧ x.length = n :=
    ⟨row.take m, row.drop m, (List.take_append_drop m row).symm, by rw [List.length_take]; omega,
      by rw [List.length_drop]; omega⟩
  -- the outcomes of the columns are what stands at their places
  rw [← hy, List.rotate_append_length_eq, hy, mapM_eq_ok_iff, List.map_append]
  refine map_restoreOrder (fun i v hv => ?_) (by rw [List.length_map, hx])
    (by rw [List.length_map, hy]) hout
  rw [← List.map_append, List.getElem?_map] at hv
  obtain ⟨w, hw, rfl⟩ := Option.map_eq_some_iff.mp hv
  rw [eval, hw]

section Pairs

variable (hc : c.IsWithin (n + m)) (hls : ∀ x ∈ ls, x.length = n) (hrs : ∀ y ∈ rs, y.length = m)

include hc hls hrs

/-- The moved condition has a value on all exchanged pairs if the condition has one on all pairs. -/
theorem forall_eval_swapped_iff :
    (∀ row ∈ rs.flatMap (fun y => ls.map (y ++ ·)),
        ∃ v, (c.mapColumns (swapIndex n m)).eval row = .ok v) ↔
      ∀ row ∈ ls.flatMap (fun x => rs.map (x ++ ·)), ∃ v, c.eval row = .ok v := by
  simp only [List.mem_flatMap, List.mem_map]
  constructor
  · rintro h _ ⟨x, hx, y, hy, rfl⟩
    rw [← eval_swapped hc (hls x hx) (hrs y hy)]
    exact h _ ⟨y, hy, x, hx, rfl⟩
  · rintro h _ ⟨y, hy, x, hx, rfl⟩
    rw [eval_swapped hc (hls x hx) (hrs y hy)]
    exact h _ ⟨x, hx, y, hy, rfl⟩

/-- What it keeps of them is, with the columns put back, what the condition keeps of all pairs. -/
theorem perm_filter_swapped :
    (((rs.flatMap fun y => ls.map (y ++ ·)).filter
        (c.mapColumns (swapIndex n m)).holds).map fun row => row.rotate m).Perm
      ((ls.flatMap fun x => rs.map (x ++ ·)).filter c.holds) := by
  have hturned : ∀ (x : Row), ∀ y ∈ rs, (y ++ x).rotate m = x ++ y := by
    intro x y hy
    rw [← hrs y hy, List.rotate_append_length_eq]
  -- the columns may be put back before the condition is looked at
  have hholds : ∀ row ∈ rs.flatMap (fun y => ls.map (y ++ ·)),
      (c.mapColumns (swapIndex n m)).holds row = (c.holds ∘ fun row => row.rotate m) row := by
    intro row hrow
    obtain ⟨y, hy, hrow⟩ := List.mem_flatMap.mp hrow
    obtain ⟨x, hx, rfl⟩ := List.mem_map.mp hrow
    unfold holds value
    rw [Function.comp_apply, hturned x y hy, eval_swapped hc (hls x hx) (hrs y hy)]
  have hpairs : (rs.flatMap fun y => ls.map (y ++ ·)).map (fun row => row.rotate m) =
      rs.flatMap fun y => ls.map fun x => x ++ y := by
    rw [List.map_flatMap]
    refine List.flatMap_congr fun y hy => ?_
    rw [List.map_map]
    exact List.map_congr_left fun x _ => hturned x y hy
  rw [List.filter_congr hholds, ← List.filter_map, hpairs]
  exact (perm_flatMap_map (· ++ ·) ls rs).filter _

end Pairs

end Expr

/-! ## Pipelines -/

/-- What is made of a value makes no difference to an error. -/
theorem map_eq_error_iff {ε α β : Type} {f : α → β} {x : Except ε α} {e : ε} :
    x.map f = .error e ↔ x = .error e := by
  cases x with
  | error e' => rw [Except.map, Except.error.injEq, Except.error.injEq]
  | ok a => exact iff_of_false nofun nofun

/-- Where a row is computed from each of the rows among answers, all rows are those computed from all
of them, and an error is the first one that there was before. -/
theorem Answers.all_forEach_compute {compute : Row → Except ExecutionError Row} {f : Row → Row}
    {as : Answers} (h : ∀ row, .ok row ∈ as → compute row = .ok (f row)) :
    all (forEach (fun row => [compute row]) as) = (all as).map (List.map f) := by
  induction as with
  | nil => rfl
  | cons x rest ih =>
      cases x with
      | error e => rfl
      | ok row =>
          have hrest := ih fun row hrow => h row (List.mem_cons_of_mem _ hrow)
          rw [forEach, List.flatMap_cons, ← forEach, after_ok, h row List.mem_cons_self,
            List.singleton_append, all, all, hrest]
          cases all rest with
          | error e => rfl
          | ok rows => rfl

namespace Pipeline

open Answers

variable {source : RowSource} {ls rs : List Row} {n m : Nat} {c : Expr}

/-- One pipeline in place of another one: it has the same rows, in some order, where that has rows,
and fails where that fails. All errors of both come of the values in rows. -/
structure Rearranges (source : RowSource) (original proposed : Pipeline) : Prop where
  perm : ∀ rows, (Executable.pipeline original).run source = .ok rows →
    ∃ rows', (Executable.pipeline proposed).run source = .ok rows' ∧ rows'.Perm rows
  fails : (∃ e, (Executable.pipeline proposed).run source = .error e) ↔
    ∃ e, (Executable.pipeline original).run source = .error e
  ofValues : ∀ e, (Executable.pipeline original).run source = .error e ∨
    (Executable.pipeline proposed).run source = .error e → e.IsOfValues

section Join

variable (hc : c.IsWithin (n + m)) (hls : ∀ x ∈ ls, x.length = n) (hrs : ∀ y ∈ rs, y.length = m)

include hc hls hrs

/-- An inner join answers with rows of its width, and with errors of its condition on them. -/
theorem are_forEach_joinRow :
    Are (fun row => row.length = n + m) ExecutionError.IsOfValues
      (forEach (RowStream.joinRow .inner c m rs) (ls.map .ok)) := by
  have hrows : Are (fun row => row ∈ ls) ExecutionError.IsOfValues (ls.map .ok) := by
    constructor
    · intro row hrow
      obtain ⟨x, hx, heq⟩ := List.mem_map.mp hrow
      cases heq
      exact hx
    · intro e he
      obtain ⟨x, -, heq⟩ := List.mem_map.mp he
      cases heq
  refine hrows.forEach fun x hx => RowStream.are_joinRow (fun y hy => ?_) ?_ fun y hy e he => ?_
  · rw [List.length_append, hls x hx, hrs y hy]
  · rw [List.length_append, hls x hx, List.length_replicate]
  · refine Expr.IsWithin.isOfValues_eval ?_ e he
    rw [List.length_append, hls x hx, hrs y hy]
    exact hc

omit hc hls hrs in
theorem answers_join_values (ls rs : List Row) (c : Expr) (padding : Nat) :
    (Pipeline.join (.values ls) (.values rs) .inner c padding).answers source =
      .ok (forEach (RowStream.joinRow .inner c padding rs) (ls.map .ok)) := by
  rw [answers_join, answers_values, answers_values]
  show (all (rs.map .ok) >>= _ : Except _ _) = _
  rw [all_map_ok]
  rfl

/-- A join fails on the values in rows only. -/
theorem isOfValues_of_run_join {e : ExecutionError}
    (h : (Executable.pipeline (.join (.values ls) (.values rs) .inner c m)).run source =
      .error e) : e.IsOfValues := by
  rw [run_pipeline, answers_join_values] at h
  exact (are_forEach_joinRow hc hls hrs).error e (mem_of_all_eq_error h)

/-- A projection that restores the order of the columns turns all rows of a join round, and fails
where the join does. -/
theorem run_restored {out : RowType} (hout : out.width = m + n) :
    (Executable.pipeline ((Pipeline.join (.values ls) (.values rs) .inner c m).project
        (Rule.restoreOrder m n out))).run source =
      ((Executable.pipeline (.join (.values ls) (.values rs) .inner c m)).run source).map
        (List.map fun row => row.rotate n) := by
  rw [run_pipeline, run_pipeline, answers_project, answers_join_values]
  refine all_forEach_compute fun row hrow => Expr.mapM_eval_restoreOrder ?_ hout
  exact (are_forEach_joinRow hc hls hrs).row row hrow

omit hls hrs hc in
/-- A join has rows if its condition has a value on all pairs, and fails otherwise. -/
theorem exists_run_join_error_iff :
    (∃ e, (Executable.pipeline (.join (.values ls) (.values rs) .inner c m)).run source = .error e) ↔
      ¬ ∀ row ∈ ls.flatMap (fun x => rs.map (x ++ ·)), ∃ v, c.eval row = .ok v := by
  rcases hrun : (Executable.pipeline (.join (.values ls) (.values rs) .inner c m)).run source with
    e | rows
  · refine iff_of_true ⟨e, rfl⟩ fun heval => ?_
    rw [run_join_iff.mpr ⟨heval, rfl⟩] at hrun
    cases hrun
  · exact iff_of_false nofun fun hnot => hnot (run_join_iff.mp hrun).eval

end Join

/-- An inner join by the projection, in restored order, of the join with its inputs exchanged. -/
theorem rearranges_join (source : RowSource) (hc : c.IsWithin (n + m))
    (hls : ∀ x ∈ ls, x.length = n) (hrs : ∀ y ∈ rs, y.length = m) {out : RowType}
    (hout : out.width = n + m) :
    Rearranges source (.join (.values ls) (.values rs) .inner c m)
      ((Pipeline.join (.values rs) (.values ls) .inner (c.mapColumns (Rule.swapIndex n m)) n).project
        (Rule.restoreOrder n m out)) := by
  have hc' : (c.mapColumns (Rule.swapIndex n m)).IsWithin (m + n) := by
    rw [Nat.add_comm]
    exact hc.mapColumns fun i hi => swapIndex_lt (Nat.le_refl _) hi
  have hrestored := @run_restored source _ _ _ _ _ hc' hrs hls _ hout
  have heval := Expr.forall_eval_swapped_iff hc hls hrs
  refine ⟨fun rows hrows => ?_, ?_, fun e he => ?_⟩
  · obtain ⟨hall, rfl⟩ := run_join_iff.mp hrows
    refine ⟨_, ?_, Expr.perm_filter_swapped hc hls hrs⟩
    rw [hrestored, run_join_iff.mpr ⟨heval.mpr hall, rfl⟩]
    rfl
  · rw [hrestored]
    simp only [map_eq_error_iff]
    rw [exists_run_join_error_iff, exists_run_join_error_iff, heval]
  · rcases he with he | he
    · exact isOfValues_of_run_join hc hls hrs he
    · rw [hrestored] at he
      exact isOfValues_of_run_join hc' hrs hls (map_eq_error_iff.mp he)

end Pipeline

/-! ## Exchanging twice -/

namespace Rule

open QueryPlanner.Expr

/-- A column that is moved with an exchange comes back when the inputs are exchanged again. -/
theorem swapIndex_swapIndex {n m i : Nat} (hi : i < n + m) :
    swapIndex m n (swapIndex n m i) = i := by
  unfold swapIndex
  split
  · rw [if_neg (by omega)]
    omega
  · rw [if_pos (by omega)]
    omega

end Rule

namespace Expr

variable {f g : Nat → Nat}

mutual

/-- Columns that are moved and come back leave the expression as it was. -/
theorem mapColumns_mapColumns_eq_self : ∀ e : Expr, (∀ c ∈ e.columns, g (f c.index) = c.index) →
    (e.mapColumns f).mapColumns g = e
  | column c, h => by
      rw [mapColumns, mapColumns, h c (List.mem_singleton_self c)]
  | literal _, _ => rfl
  | binary _ l r, h => by
      rw [mapColumns, mapColumns,
        mapColumns_mapColumns_eq_self l fun c hc => h c (List.mem_append_left _ hc),
        mapColumns_mapColumns_eq_self r fun c hc => h c (List.mem_append_right _ hc)]
  | unary _ e, h => by rw [mapColumns, mapColumns, mapColumns_mapColumns_eq_self e h]
  | call _ args, h => by rw [mapColumns, mapColumns, mapColumnsList_mapColumnsList_eq_self args h]
  | and es, h => by rw [mapColumns, mapColumns, mapColumnsList_mapColumnsList_eq_self es h]
  | or es, h => by rw [mapColumns, mapColumns, mapColumnsList_mapColumnsList_eq_self es h]

theorem mapColumnsList_mapColumnsList_eq_self : ∀ es : List Expr,
    (∀ c ∈ columnsOfList es, g (f c.index) = c.index) →
      mapColumnsList g (mapColumnsList f es) = es
  | [], _ => rfl
  | e :: es, h => by
      rw [mapColumnsList, mapColumnsList,
        mapColumns_mapColumns_eq_self e fun c hc => h c (List.mem_append_left _ hc),
        mapColumnsList_mapColumnsList_eq_self es fun c hc => h c (List.mem_append_right _ hc)]

end

mutual

/-- Moving columns leaves alone which literals stand for others. -/
theorem canonical_mapColumns (f : Nat → Nat) : ∀ e : Expr,
    (e.mapColumns f).canonical = e.canonical.mapColumns f
  | column _ => rfl
  | literal _ => rfl
  | binary _ l r => by
      rw [mapColumns, canonical, canonical, mapColumns, canonical_mapColumns f l,
        canonical_mapColumns f r]
  | unary _ e => by rw [mapColumns, canonical, canonical, mapColumns, canonical_mapColumns f e]
  | call _ args => by
      rw [mapColumns, canonical, canonical, mapColumns, canonicalList_mapColumnsList f args]
  | and es => by
      rw [mapColumns, canonical, canonical, mapColumns, canonicalList_mapColumnsList f es]
  | or es => by
      rw [mapColumns, canonical, canonical, mapColumns, canonicalList_mapColumnsList f es]

theorem canonicalList_mapColumnsList (f : Nat → Nat) : ∀ es : List Expr,
    canonicalList (mapColumnsList f es) = mapColumnsList f (canonicalList es)
  | [] => rfl
  | e :: es => by
      rw [mapColumnsList, canonicalList, canonicalList, mapColumnsList, canonical_mapColumns f e,
        canonicalList_mapColumnsList f es]

end

mutual

/-- A literal that stands for others is no column. -/
theorem columns_canonical : ∀ e : Expr, e.canonical.columns = e.columns
  | column _ => rfl
  | literal _ => rfl
  | binary _ l r => by
      rw [canonical, columns, columns, columns_canonical l, columns_canonical r]
  | unary _ e => by rw [canonical, columns, columns, columns_canonical e]
  | call _ args => by rw [canonical, columns, columns, columnsOfList_canonicalList args]
  | and es => by rw [canonical, columns, columns, columnsOfList_canonicalList es]
  | or es => by rw [canonical, columns, columns, columnsOfList_canonicalList es]

theorem columnsOfList_canonicalList : ∀ es : List Expr,
    columnsOfList (canonicalList es) = columnsOfList es
  | [] => rfl
  | e :: es => by
      rw [canonicalList, columnsOfList, columnsOfList, columns_canonical e,
        columnsOfList_canonicalList es]

end

/-- A condition that stands for one with its columns moved stands for the original one once they are
moved back. -/
theorem canonical_swapped {c d : Expr} {n m : Nat} (hc : c.IsWithin (n + m))
    (hd : d.canonical = (c.mapColumns (Rule.swapIndex n m)).canonical) :
    (d.mapColumns (Rule.swapIndex m n)).canonical = c.canonical := by
  rw [canonical_mapColumns, hd, ← canonical_mapColumns, mapColumns_mapColumns_eq_self c]
  exact fun i hi => Rule.swapIndex_swapIndex (hc i hi)

end Expr

namespace Rule

open QueryPlanner.Expr

/-- The columns of a row type in order. -/
def columnsOf (t : RowType) : List Expr := t.fields.zipIdx.map fun (f, i) => .col f.name i

theorem areColumnsFrom_zipIdx (fields : List Field) (first : Nat) :
    areColumnsFrom first ((fields.zipIdx first).map fun (f, i) => .col f.name i) = true := by
  induction fields generalizing first with
  | nil => rfl
  | cons f rest ih =>
      rw [List.zipIdx_cons, List.map_cons]
      exact Bool.and_eq_true_iff.mpr ⟨decide_eq_true rfl, ih (first + 1)⟩

/-- A projection to all columns of its input in order is trivial. -/
theorem isTrivial_columnsOf {ν : Type} {memo : Memo ν} {t : RowType} {g : GroupId}
    (ht : (memo.group g).rowType = t) : isTrivial memo (columnsOf t) t g = true := by
  unfold isTrivial
  rw [ht, Bool.and_eq_true, Bool.and_eq_true, decide_eq_true_iff, decide_eq_true_iff]
  refine ⟨⟨?_, rfl⟩, areColumnsFrom_zipIdx t.fields 0⟩
  rw [columnsOf, List.length_map, List.length_zipIdx]
  rfl

/-- Expressions that are made one by one are inlined one by one. -/
theorem inlineList_map {α : Type} {inner : List Expr} {f g : α → Expr} {xs : List α}
    (h : ∀ x ∈ xs, (f x).inline inner = some (g x)) :
    inlineList inner (xs.map f) = some (xs.map g) := by
  induction xs with
  | nil => rfl
  | cons x rest ih =>
      obtain ⟨hx, hrest⟩ := List.forall_mem_cons.mp h
      rw [List.map_cons, inlineList, hx, ih hrest]
      rfl

/-- What stands at a place of the columns in restored order. -/
theorem getElem?_restoreOrder (n m : Nat) (out : RowType) (i : Nat) :
    (restoreOrder n m out)[i]? = out.fields[i]?.map fun f => .col f.name (swapIndex n m i) := by
  rw [restoreOrder, List.getElem?_map, List.getElem?_zipIdx, Option.map_map, Nat.zero_add]
  rfl

/-- Columns restored after one exchange, over those restored after the next one, are all columns in
order. -/
theorem inlineList_restoreOrder (t u : RowType) :
    inlineList (restoreOrder u.width t.width (u.join t false))
      (restoreOrder t.width u.width (t.join u false)) = some (columnsOf (t.join u false)) := by
  refine inlineList_map fun x hx => ?_
  have hi : x.2 < t.width + u.width := by
    rw [← RowType.width_join t u false]
    exact List.snd_lt_of_mem_zipIdx hx
  have hfield : (t.join u false).fields[x.2]? = some x.1 := List.mem_zipIdx_iff_getElem?.mp hx
  -- the field of the column is found where the exchange has put it
  have hmoved : (u.join t false).fields[swapIndex t.width u.width x.2]? = some x.1 := by
    rw [RowType.fields_join_false] at hfield ⊢
    have hplace : (u.fields ++ t.fields)[swapIndex t.width u.width x.2]? =
        (t.fields ++ u.fields)[x.2]? := getElem?_swapIndex rfl rfl hi
    exact hplace.trans hfield
  show (restoreOrder u.width t.width (u.join t false))[swapIndex t.width u.width x.2]? = _
  rw [getElem?_restoreOrder, hmoved, Option.map_some, swapIndex_swapIndex hi]

end Rule

/-! ## The rule -/

namespace Rule

open Memo

variable {ν : Type} {memo : Memo ν}

/-- For an inner join whose condition reads no columns but those of its inputs, the projection of the
join with exchanged inputs is proposed. Over all rows of the widths of the inputs it has the rows of the
join in some order, fails where the join fails, and is of the row type of the join. -/
theorem commuteJoin_rearranges (h : memo.Built) {i : MemberId} (hi : i < memo.members.size)
    {c : Expr} {a b : GroupId} (hop : (memo.member i).op = .join .inner c)
    (hchildren : (memo.member i).children = [a, b])
    (hc : c.IsWithin ((memo.group a).rowType.width + (memo.group b).rowType.width))
    (catalog : Catalog ν) (source : RowSource) :
    ∃ exprs t c', commuteJoin.propose catalog memo (memo.member i) =
        [.compound (.project exprs t) [.fresh (.join .inner c') [.group b, .group a]]] ∧
      (memo.member i).op.deriveRowType [(memo.group a).rowType, (memo.group b).rowType] = .ok t ∧
      ∀ ls rs, (∀ x ∈ ls, x.length = (memo.group a).rowType.width) →
        (∀ y ∈ rs, y.length = (memo.group b).rowType.width) →
          Pipeline.Rearranges source
            (.join (.values ls) (.values rs) .inner c (memo.group b).rowType.width)
            ((Pipeline.join (.values rs) (.values ls) .inner c' (memo.group a).rowType.width).project
              exprs) := by
  have hderived := (h.settled.1.member i hi).1.rowType
  rw [hchildren] at hderived
  have hwidth : (memo.group (memo.member i).group).rowType.width =
      (memo.group a).rowType.width + (memo.group b).rowType.width := by
    rw [hop] at hderived
    exact (congrArg RowType.width (Except.ok.inj hderived)).symm.trans (RowType.width_join ..)
  refine ⟨_, _, _, ?_, hderived, fun ls rs hls hrs =>
    Pipeline.rearranges_join source hc hls hrs hwidth⟩
  unfold commuteJoin
  dsimp only
  rw [hop, hchildren]

/-- Whether `x` is below `y`, in rows of `x`, `y` and `z`. -/
def isBelow : Expr := .binary .lt (.col "x" 0) (.col "y" 1)

/-- A table of one column and a table of two, and the pairs in which the first column is below the
second one. -/
def belowPairs : Memo Float :=
  let t : RowType := ⟨[⟨"x", .int64, true⟩]⟩
  let u : RowType := ⟨[⟨"y", .int64, true⟩, ⟨"z", .utf8, true⟩]⟩
  let calls : List Call := [.addLogical (.scan ⟨"s", "t"⟩ t) [], .addLogical (.scan ⟨"s", "u"⟩ u) [],
    .addLogical (.join .inner isBelow) [0, 1]]
  calls.foldl (fun memo c => (c.run.run.run memo).2) .empty

theorem built_belowPairs : belowPairs.Built := by
  refine ((Built.empty.call _ ?_).call _ ?_).call _ ?_
  all_goals decide +kernel

/-- Two rows on each side, of which three pairs meet the condition. -/
theorem commuteJoin_rearranges_belowPairs :
    ∃ exprs t c', commuteJoin.propose {} belowPairs (belowPairs.member 2) =
        [.compound (.project exprs t) [.fresh (.join .inner c') [.group 1, .group 0]]] ∧
      t.names = ["x", "y", "z"] ∧
      ∃ rows, (Executable.pipeline ((Pipeline.join
          (.values [[.int 5, .text "a"], [.int 2, .null]]) (.values [[.int 1], [.int 4]]) .inner c' 1
          ).project exprs)).run (.ofTables []) = .ok rows ∧
        rows.Perm [[.int 1, .int 5, .text "a"], [.int 1, .int 2, .null], [.int 4, .int 5, .text "a"]] := by
  have hi : 2 < belowPairs.members.size := by decide +kernel
  have hc : isBelow.IsWithin ((belowPairs.group 0).rowType.width +
      (belowPairs.group 1).rowType.width) := by
    unfold Expr.IsWithin
    decide +kernel
  obtain ⟨exprs, t, c', hpropose, htype, hrearranges⟩ := commuteJoin_rearranges built_belowPairs hi
    rfl rfl hc {} (.ofTables [])
  refine ⟨exprs, t, c', hpropose, ?_, ?_⟩
  · exact (congrArg RowType.names (Except.ok.inj htype)).symm.trans (by decide +kernel)
  · refine (hrearranges [[.int 1], [.int 4]] [[.int 5, .text "a"], [.int 2, .null]] ?_ ?_).perm _ rfl
    · decide +kernel
    · decide +kernel

end Rule

end QueryPlanner
