/-
# Operators that are alike

The memo keeps one of two operators that are the same up to the sign of zeros. Over inputs that
answer alike they answer alike, in whatever convention, unless one of their expressions comes to a
division that tells its divisors apart.

* `AlikeAnswers` : answers that are alike one by one;
* `Operator.TellsApart` : an expression of two operators comes to such a division;
* `endAlike_answers` : other operators that are alike answer alike.
-/
import QueryPlanner.Proofs.Likeness.Expressions

namespace QueryPlanner

open Answers Scalar

/-- Answers that are alike, one after another. -/
abbrev AlikeAnswers : Answers → Answers → Prop :=
  List.Forall₂ (EndAlike (List.Forall₂ Like))

/-! ## Lists -/

/-- What is related one after another is related at the same places. -/
theorem forall₂_and_mem_zip {α β : Type} {R : α → β → Prop} {as : List α} {bs : List β}
    (h : List.Forall₂ R as bs) : List.Forall₂ (fun a b => (a, b) ∈ as.zip bs ∧ R a b) as bs := by
  obtain ⟨hlength, hall⟩ := List.forall₂_iff_zip.mp h
  exact List.forall₂_iff_zip.mpr ⟨hlength, fun hmem => ⟨hmem, hall hmem⟩⟩

theorem mem_zip_map_ok {rows rows' : List Row} {row row' : Row} (h : (row, row') ∈ rows.zip rows') :
    (.ok row, .ok row') ∈ (rows.map .ok : Answers).zip (rows'.map .ok : Answers) := by
  rw [List.zip_map]
  exact List.mem_map_of_mem h

/-! ## Answers -/

namespace AlikeAnswers

variable {as bs : Answers}

theorem of_rows {rows rows' : List Row} (h : List.Forall₂ (List.Forall₂ Like) rows rows') :
    AlikeAnswers (rows.map .ok) (rows'.map .ok) :=
  List.rel_map (fun _ _ hrow => .ok hrow) h

/-- What follows on the rows of answers that are alike. -/
theorem forEach (h : AlikeAnswers as bs) {out out' : Row → Answers}
    (hout : ∀ row row', (.ok row, .ok row') ∈ as.zip bs → List.Forall₂ Like row row' →
      AlikeAnswers (out row) (out' row')) :
    AlikeAnswers (forEach out as) (forEach out' bs) := by
  refine List.rel_flatMap (forall₂_and_mem_zip h) fun x y hxy => ?_
  obtain ⟨hmem, halike⟩ := hxy
  cases halike with
  | ok hrow => exact hout _ _ hmem hrow
  | error h => exact .cons (.error h) .nil

/-- All rows. -/
theorem all (h : AlikeAnswers as bs) :
    EndAlike (List.Forall₂ (List.Forall₂ Like)) (all as) (all bs) := by
  induction h with
  | nil => exact .ok .nil
  | cons hx _ ih =>
      exact hx.bind fun _ _ _ _ hrow => ih.bind fun _ _ _ _ hrows => .ok (.cons hrow hrows)

theorem keep {row row' : Row} {x y : Outcome} (hrow : List.Forall₂ Like row row')
    (h : EndAlike Like x y) : AlikeAnswers (keep row x) (keep row' y) := by
  cases h with
  | error h => exact .cons (.error h) .nil
  | @ok v w hlike =>
      unfold Answers.keep
      rw [after_ok, after_ok, hlike.isTrue_eq]
      split
      · exact .cons (.ok hrow) .nil
      · exact .nil

end AlikeAnswers

/-! ## Joins -/

namespace RowStream

variable {p p' : Expr} {left left' : Row} {rows rows' : List Row}

/-- The rows that match a left row. -/
theorem endAlike_matchesAfter {acc acc' : List Row} (hleft : List.Forall₂ Like left left')
    (hrows : List.Forall₂ (List.Forall₂ Like) rows rows')
    (hacc : List.Forall₂ (List.Forall₂ Like) acc acc')
    (h : ∀ row row', (row, row') ∈ rows.zip rows' →
      EndAlike Like (p.eval (left ++ row)) (p'.eval (left' ++ row'))) :
    EndAlike (List.Forall₂ (List.Forall₂ Like)) (matchesAfter p left acc rows)
      (matchesAfter p' left' acc' rows') := by
  induction hrows generalizing acc acc' with
  | nil => exact .ok (List.rel_reverse hacc)
  | @cons row row' rest rest' hrow hrest ih =>
      unfold matchesAfter
      refine (h row row' List.mem_cons_self).bind fun v w _ _ hlike => ?_
      refine ih ?_ fun r r' hmem => h r r' (List.mem_cons_of_mem _ hmem)
      rw [hlike.isTrue_eq]
      split
      · exact .cons (List.rel_append hleft hrow) hacc
      · exact hacc

/-- What a left row makes with all right rows. -/
theorem alikeAnswers_joinRow (type : JoinType) (padding : Nat)
    (hleft : List.Forall₂ Like left left') (hrows : List.Forall₂ (List.Forall₂ Like) rows rows')
    (h : ∀ row row', (row, row') ∈ rows.zip rows' →
      EndAlike Like (p.eval (left ++ row)) (p'.eval (left' ++ row'))) :
    AlikeAnswers (joinRow type p padding rows left) (joinRow type p' padding rows' left') := by
  have hmatches := endAlike_matchesAfter hleft hrows .nil h
  unfold joinRow
  generalize matchesAfter p left [] rows = x at hmatches
  generalize matchesAfter p' left' [] rows' = y at hmatches
  cases hmatches with
  | error h => exact .cons (.error h) .nil
  | @ok matched matched' hmatched =>
      dsimp only
      have hempty : matched.isEmpty = matched'.isEmpty := by cases hmatched <;> rfl
      rw [hempty]
      split
      · exact .cons (.ok (List.rel_append hleft (List.forall₂_same.mpr fun _ _ => rfl))) .nil
      · exact .of_rows hmatched

end RowStream

/-! ## Sorting -/

namespace SortKey

variable {order order' : List SortKey}

theorem compareValues_congr {key key' : SortKey} (h : key.canonical = key'.canonical)
    {v v' w w' : Scalar} (hv : Like v v') (hw : Like w w') :
    key.compareValues v w = key'.compareValues v' w' := by
  obtain ⟨e, ascending, nullsFirst⟩ := key
  obtain ⟨e', ascending', nullsFirst'⟩ := key'
  obtain ⟨-, rfl, rfl⟩ := SortKey.mk.inj h
  unfold compareValues
  rw [hv.isNull_eq, hw.isNull_eq, compare_congr hv hw]

theorem compareKeys_congr (h : order.map canonical = order'.map canonical)
    {vs vs' ws ws' : List Scalar} (hv : List.Forall₂ Like vs vs') (hw : List.Forall₂ Like ws ws') :
    compareKeys order vs ws = compareKeys order' vs' ws' := by
  induction order generalizing order' vs vs' ws ws' with
  | nil =>
      cases order' with
      | nil => rfl
      | cons _ _ => cases h
  | cons key order ih =>
      cases order' with
      | nil => cases h
      | cons key' order' =>
          obtain ⟨hkey, horder⟩ := List.cons.inj h
          cases hv with
          | nil => rfl
          | cons hv hvs =>
              cases hw with
              | nil => rfl
              | cons hw hws =>
                  rw [compareKeys, compareKeys, compareValues_congr hkey hv hw, ih horder hvs hws]

/-- Rows beside their keys that are alike. -/
def LikeKeyed (x y : List Scalar × Row) : Prop :=
  List.Forall₂ Like x.1 y.1 ∧ List.Forall₂ Like x.2 y.2

/-- Rows that are alike are sorted alike, if they can be sorted. -/
theorem rel_sortKeyed (h : order.map canonical = order'.map canonical)
    {xs xs' : List (List Scalar × Row)} (hxs : List.Forall₂ LikeKeyed xs xs') :
    Option.Rel (List.Forall₂ LikeKeyed) (sortKeyed order xs) (sortKeyed order' xs') := by
  refine Sorting.sort_forall₂ (fun x y x' y' hx hy => ?_) hxs
  rw [compareKeys_congr h hx.1 hy.1]

theorem endAlike_sortRows (h : order.map canonical = order'.map canonical) {rows rows' : List Row}
    (hrows : List.Forall₂ (List.Forall₂ Like) rows rows')
    (hkeys : ∀ row row', (row, row') ∈ rows.zip rows' → List.Forall₂ Like row row' →
      EndAlike (List.Forall₂ Like) (order.mapM fun k => k.expr.eval row)
        (order'.mapM fun k => k.expr.eval row')) :
    EndAlike (List.Forall₂ (List.Forall₂ Like)) (sortRows order rows) (sortRows order' rows') := by
  have hkeyed : EndAlike (List.Forall₂ LikeKeyed)
      (rows.mapM fun row => do
        let key ← order.mapM fun k => k.expr.eval row
        pure (key, row))
      (rows'.mapM fun row => do
        let key ← order'.mapM fun k => k.expr.eval row
        pure (key, row)) :=
    EndAlike.mapM (forall₂_and_mem_zip hrows) fun row row' hrow =>
      (hkeys row row' hrow.1 hrow.2).bind fun _ _ _ _ hkey => .ok ⟨hkey, hrow.2⟩
  refine hkeyed.bind fun keyed keyed' _ _ hall => ?_
  have hsorted := rel_sortKeyed h hall
  generalize sortKeyed order keyed = sorted at hsorted
  generalize sortKeyed order' keyed' = sorted' at hsorted
  cases hsorted with
  | some hsorted => exact .ok (List.rel_map (fun _ _ hxy => hxy.2) hsorted)
  | none => exact .error rfl

end SortKey

/-! ## Operators -/

/-- Inputs that are of the same row type and answer alike. -/
structure Handover.Alike (i i' : Handover) : Prop where
  rowType : i.rowType = i'.rowType
  answers : EndAlike AlikeAnswers i.answers i'.answers

/-- Rows at the same place of two inputs. -/
def Handover.Pairs (i i' : Handover) (row row' : Row) : Prop :=
  (.ok row, .ok row') ∈ (after i.answers id).zip (after i'.answers id)

namespace Handover

variable {i i' : Handover} {row row' : Row}

theorem pairs_of_answers {as bs : Answers} (h : i.answers = .ok as) (h' : i'.answers = .ok bs)
    (hmem : (.ok row, .ok row') ∈ as.zip bs) : i.Pairs i' row row' := by
  unfold Pairs
  rw [h, h']
  exact hmem

theorem pairs_of_rows {rows rows' : List Row} (h : i.answers.bind all = .ok rows)
    (h' : i'.answers.bind all = .ok rows') (hmem : (row, row') ∈ rows.zip rows') :
    i.Pairs i' row row' := by
  have hanswers : ∀ {x : Except ExecutionError Answers} {rows}, x.bind all = .ok rows →
      x = .ok (rows.map .ok) := by
    intro x rows hx
    cases x with
    | error e => cases hx
    | ok as => rw [all_eq_ok hx]
  exact pairs_of_answers (hanswers h) (hanswers h') (mem_zip_map_ok hmem)

theorem Alike.after (h : i.Alike i') : AlikeAnswers (after i.answers id) (after i'.answers id) := by
  obtain ⟨-, hanswers⟩ := h
  generalize i.answers = x at hanswers
  generalize i'.answers = y at hanswers
  cases hanswers with
  | ok h => exact h
  | error h => exact .cons (.error h) .nil

theorem Alike.all (h : i.Alike i') :
    EndAlike (List.Forall₂ (List.Forall₂ Like)) (i.answers.bind all) (i'.answers.bind all) :=
  h.answers.bind fun _ _ _ _ hanswers => hanswers.all

end Handover

namespace Operator

/-- Expressions of two operators come, on rows of their inputs, to a division that tells its
divisors apart. Keys are evaluated for rows that are pulled. -/
def TellsApart (c : Convention) (op op' : Operator) (inputs inputs' : List Handover) : Prop :=
  match op, op', inputs, inputs' with
  | .filter p, .filter p', [i], [i'] => ∃ row row', i.Pairs i' row row' ∧
      p.tellsApart c row row' p' = true
  | .project es _, .project es' _, [i], [i'] => ∃ row row', i.Pairs i' row row' ∧
      Expr.tellsApartIn c row row' (fun _ => false) es es' = true
  | .join _ p, .join _ p', [l, r], [l', r'] => ∃ left left' right right', l.Pairs l' left left' ∧
      r.Pairs r' right right' ∧ p.tellsApart c (left ++ right) (left' ++ right') p' = true
  | .sort order, .sort order', [i], [i'] => ∃ row row', i.Pairs i' row row' ∧
      Expr.tellsApartIn .iterator row row' (fun _ => false) (order.map SortKey.expr)
        (order'.map SortKey.expr) = true
  | _, _, _, _ => False

section

variable (source : RowSource) (c : Convention) {inputs inputs' : List Handover}

theorem endAlike_answers_values {t : RowType} {rows rows' : List Row}
    (h : (values t rows).canonical = (values t rows').canonical) :
    EndAlike AlikeAnswers ((values t rows).answers source c inputs)
      ((values t rows').answers source c inputs') := by
  have hrows : List.Forall₂ (List.Forall₂ Like) rows rows' := by
    have hmap := (values.inj h).2
    rw [← List.forall₂_eq_eq_eq, List.forall₂_map_left_iff, List.forall₂_map_right_iff] at hmap
    exact hmap.imp fun _ _ => forall₂_like_iff.mpr
  exact .ok (.of_rows hrows)

theorem endAlike_answers_filter {p p' : Expr} (hp : p.canonical = p'.canonical)
    (hinputs : List.Forall₂ Handover.Alike inputs inputs')
    (h : ¬ TellsApart c (filter p) (filter p') inputs inputs') :
    EndAlike AlikeAnswers ((filter p).answers source c inputs)
      ((filter p').answers source c inputs') := by
  rcases hinputs with _ | ⟨hi, _ | _⟩
  · exact .ok .nil
  · refine hi.answers.map fun as bs has hbs hanswers => ?_
    refine hanswers.forEach fun row row' hmem hrow => .keep hrow ?_
    refine Expr.endAlike_outcome hrow p p' hp (Bool.eq_false_iff.mpr fun ht => ?_)
    exact h ⟨row, row', Handover.pairs_of_answers has hbs hmem, ht⟩
  · exact .ok .nil

theorem endAlike_answers_project {es es' : List Expr} {t : RowType}
    (hes : es.map Expr.canonical = es'.map Expr.canonical)
    (hinputs : List.Forall₂ Handover.Alike inputs inputs')
    (h : ¬ TellsApart c (project es t) (project es' t) inputs inputs') :
    EndAlike AlikeAnswers ((project es t).answers source c inputs)
      ((project es' t).answers source c inputs') := by
  rw [← Expr.canonicalList_eq, ← Expr.canonicalList_eq] at hes
  rcases hinputs with _ | ⟨hi, _ | _⟩
  · exact .ok .nil
  · refine hi.answers.map fun as bs has hbs hanswers => ?_
    refine hanswers.forEach fun row row' hmem hrow => .cons ?_ .nil
    refine Expr.endAlike_mapM hrow hes (Bool.eq_false_iff.mpr fun ht => ?_)
    exact h ⟨row, row', Handover.pairs_of_answers has hbs hmem, ht⟩
  · exact .ok .nil

theorem endAlike_answers_join {type : JoinType} {p p' : Expr} (hp : p.canonical = p'.canonical)
    (hinputs : List.Forall₂ Handover.Alike inputs inputs')
    (h : ¬ TellsApart c (join type p) (join type p') inputs inputs') :
    EndAlike AlikeAnswers ((join type p).answers source c inputs)
      ((join type p').answers source c inputs') := by
  rcases hinputs with _ | @⟨l, l', _, _, hl, _ | @⟨r, r', _, _, hr, _ | _⟩⟩
  · exact .ok .nil
  · exact .ok .nil
  · have houtcome : ∀ left left' right right', l.Pairs l' left left' → r.Pairs r' right right' →
        List.Forall₂ Like left left' → List.Forall₂ Like right right' →
          EndAlike Like (c.outcome (left ++ right) p) (c.outcome (left' ++ right') p') := by
      intro left left' right right' hleft hright halike halike'
      refine Expr.endAlike_outcome (List.rel_append halike halike') p p' hp ?_
      exact Bool.eq_false_iff.mpr fun ht => h ⟨left, left', right, right', hleft, hright, ht⟩
    unfold answers
    dsimp only
    by_cases hc : c = .iterator
    · subst hc
      rw [Convention.outcome_iterator] at houtcome
      rw [if_pos rfl, if_pos rfl, hr.rowType]
      refine hr.all.bind fun rows rows' hrows hrows' halike => ?_
      refine hl.answers.map fun as bs has hbs hanswers => ?_
      refine hanswers.forEach fun left left' hmem hleft => ?_
      refine RowStream.alikeAnswers_joinRow type _ hleft halike fun row row' hrow => ?_
      exact houtcome left left' row row' (Handover.pairs_of_answers has hbs hmem)
        (Handover.pairs_of_rows hrows hrows' hrow) hleft (List.forall₂_zip halike hrow)
    · rw [Convention.outcome_of_ne hc] at houtcome
      rw [if_neg hc, if_neg hc]
      refine hl.answers.map fun as bs has hbs hanswers => ?_
      refine hanswers.forEach fun left left' hmem hleft => ?_
      refine hr.after.forEach fun row row' hrow halike => ?_
      refine .keep (List.rel_append hleft halike) ?_
      exact houtcome left left' row row' (Handover.pairs_of_answers has hbs hmem) hrow hleft halike
  · exact .ok .nil

theorem endAlike_answers_sort {order order' : List SortKey}
    (horder : order.map SortKey.canonical = order'.map SortKey.canonical)
    (hinputs : List.Forall₂ Handover.Alike inputs inputs')
    (h : ¬ TellsApart c (sort order) (sort order') inputs inputs') :
    EndAlike AlikeAnswers ((sort order).answers source c inputs)
      ((sort order').answers source c inputs') := by
  rcases hinputs with _ | ⟨hi, _ | _⟩
  · exact .ok .nil
  · refine hi.all.bind fun rows rows' hrows hrows' halike => ?_
    refine (SortKey.endAlike_sortRows horder halike fun row row' hmem hrow => ?_).map
      fun _ _ _ _ hsorted => .of_rows hsorted
    have hes : Expr.canonicalList (order.map SortKey.expr) =
        Expr.canonicalList (order'.map SortKey.expr) := by
      have hexprs := congrArg (List.map SortKey.expr) horder
      rw [List.map_map, List.map_map] at hexprs
      rw [Expr.canonicalList_eq, Expr.canonicalList_eq, List.map_map, List.map_map]
      exact hexprs
    have hkeys := Expr.endAlike_mapM (c := .iterator) hrow hes (Bool.eq_false_iff.mpr fun ht =>
      h ⟨row, row', Handover.pairs_of_rows hrows hrows' hmem, ht⟩)
    rw [Convention.outcome_iterator, List.mapM_map, List.mapM_map] at hkeys
    exact hkeys
  · exact .ok .nil

theorem endAlike_answers_limit (offset count : Nat)
    (hinputs : List.Forall₂ Handover.Alike inputs inputs') :
    EndAlike AlikeAnswers ((limit offset count).answers source c inputs)
      ((limit offset count).answers source c inputs') := by
  rcases hinputs with _ | ⟨hi, _ | _⟩
  · exact .ok .nil
  · exact hi.answers.map fun _ _ _ _ hanswers =>
      List.forall₂_take count (List.forall₂_drop offset hanswers)
  · exact .ok .nil

theorem endAlike_answers_converter (given : Convention)
    (hinputs : List.Forall₂ Handover.Alike inputs inputs') :
    EndAlike AlikeAnswers ((converter given).answers source c inputs)
      ((converter given).answers source c inputs') := by
  rcases hinputs with _ | ⟨hi, _ | _⟩
  · exact .ok .nil
  · unfold answers
    dsimp only
    split
    · exact hi.all.map fun _ _ _ _ hrows => .of_rows hrows
    · exact hi.answers
  · exact .ok .nil

end

/-- Operators that are alike answer alike over inputs that do, if none of their expressions comes to
a division that tells its divisors apart. -/
theorem endAlike_answers (source : RowSource) (c : Convention) {op op' : Operator}
    {inputs inputs' : List Handover} (hop : op.canonical = op'.canonical)
    (hinputs : List.Forall₂ Handover.Alike inputs inputs')
    (h : ¬ TellsApart c op op' inputs inputs') :
    EndAlike AlikeAnswers (op.answers source c inputs) (op'.answers source c inputs') := by
  cases op with
  | values t rows =>
      cases op' with
      | values t' rows' =>
          obtain ⟨rfl, -⟩ := values.inj hop
          exact endAlike_answers_values source c hop
      | _ => cases hop
  | scan table t =>
      cases op' with
      | scan table' t' =>
          obtain ⟨rfl, rfl⟩ := scan.inj hop
          have hrow : ∀ row : Row, List.Forall₂ Like row row := fun row =>
            List.forall₂_same.mpr fun v _ => Like.refl v
          exact .refl (fun as => List.forall₂_same.mpr fun x _ => .refl hrow x) _
      | _ => cases hop
  | filter p =>
      cases op' with
      | filter p' => exact endAlike_answers_filter source c (filter.inj hop) hinputs h
      | _ => cases hop
  | project es t =>
      cases op' with
      | project es' t' =>
          obtain ⟨hes, rfl⟩ := project.inj hop
          exact endAlike_answers_project source c hes hinputs h
      | _ => cases hop
  | join type p =>
      cases op' with
      | join type' p' =>
          obtain ⟨rfl, hp⟩ := join.inj hop
          exact endAlike_answers_join source c hp hinputs h
      | _ => cases hop
  | sort order =>
      cases op' with
      | sort order' => exact endAlike_answers_sort source c (sort.inj hop) hinputs h
      | _ => cases hop
  | limit offset count =>
      cases op' with
      | limit offset' count' =>
          obtain ⟨rfl, rfl⟩ := limit.inj hop
          exact endAlike_answers_limit source c offset count hinputs
      | _ => cases hop
  | converter given =>
      cases op' with
      | converter given' =>
          obtain rfl := converter.inj hop
          exact endAlike_answers_converter source c given hinputs
      | _ => cases hop

end Operator

end QueryPlanner
