/-
# What comes through operators

The rows that an operator answers are as wide as its row type, if those of its inputs are. All
errors among its answers are errors of its inputs, or outcomes of its expressions on rows that are
as wide as those of its inputs beside each other.

* `Handover.IsSafe` : answers of the width of their row type, with errors of some kind only;
* `Operator.isSafe_answers` : what operators make of safe answers is safe.
-/
import QueryPlanner.Proofs.Columns
import QueryPlanner.Proofs.Plan.Answers

namespace QueryPlanner

open Answers

/-! ## Joins and sorts -/

section Rows

variable {P Q : Row → Prop} {E : ExecutionError → Prop} {row : Row} {rows right : List Row}

/-- The matches of a left row are pairs with right rows. -/
theorem RowStream.mem_of_matchesAfter {c : Expr} {left : Row} {acc out : List Row}
    (h : matchesAfter c left acc right = .ok out) (hrow : row ∈ out) :
    row ∈ acc ∨ ∃ r ∈ right, row = left ++ r := by
  induction right generalizing acc with
  | nil =>
      cases h
      exact Or.inl (List.mem_reverse.mp hrow)
  | cons r rest ih =>
      rw [matchesAfter] at h
      rcases hv : c.eval (left ++ r) with e | v
      · rw [hv] at h
        cases h
      · rw [hv] at h
        rcases ih h with hacc | ⟨r', hr', rfl⟩
        · split at hacc
          · rcases List.mem_cons.mp hacc with rfl | hacc
            · exact Or.inr ⟨r, List.mem_cons_self, rfl⟩
            · exact Or.inl hacc
          · exact Or.inl hacc
        · exact Or.inr ⟨r', List.mem_cons_of_mem _ hr', rfl⟩

/-- Matching fails only where the condition does on some pair. -/
theorem RowStream.exists_of_matchesAfter_error {c : Expr} {left : Row} {acc : List Row}
    {e : ExecutionError} (h : matchesAfter c left acc right = .error e) :
    ∃ r ∈ right, c.eval (left ++ r) = .error e := by
  induction right generalizing acc with
  | nil => cases h
  | cons r rest ih =>
      rw [matchesAfter] at h
      rcases hv : c.eval (left ++ r) with e' | v
      · rw [hv] at h
        cases h
        exact ⟨r, List.mem_cons_self, hv⟩
      · rw [hv] at h
        obtain ⟨r', hr', he⟩ := ih h
        exact ⟨r', List.mem_cons_of_mem _ hr', he⟩

/-- What a left row makes with right rows are pairs, or the left row padded. -/
theorem RowStream.are_joinRow {type : JoinType} {c : Expr} {padding : Nat} {left : Row}
    (hpairs : ∀ r ∈ right, Q (left ++ r)) (hpadded : Q (left ++ List.replicate padding .null))
    (herror : ∀ r ∈ right, ∀ e, c.eval (left ++ r) = .error e → E e) :
    Are Q E (joinRow type c padding right left) := by
  unfold joinRow
  rcases hmatched : matchesAfter c left [] right with e | matched
  · refine are_singleton nofun fun e' he' => ?_
    cases he'
    obtain ⟨r, hr, he⟩ := exists_of_matchesAfter_error hmatched
    exact herror r hr e he
  · dsimp only
    split
    · refine are_singleton (fun row' hrow' => ?_) nofun
      cases hrow'
      exact hpadded
    · constructor
      · intro row' hrow'
        obtain ⟨row, hrow, heq⟩ := List.mem_map.mp hrow'
        cases heq
        rcases mem_of_matchesAfter hmatched hrow with hnil | ⟨r, hr, rfl⟩
        · exact absurd hnil List.not_mem_nil
        · exact hpairs r hr
      · intro e he
        obtain ⟨row, -, heq⟩ := List.mem_map.mp he
        cases heq

/-- The pairs in generated code are pairs with rows on the right. -/
theorem CodeBlock.are_pairsWith {c : Expr} {as : Answers} {left : Row} (has : as.Are P E)
    (hpairs : ∀ r, P r → Q (left ++ r))
    (herror : ∀ r, P r → ∀ e, c.evalWhole (left ++ r) = .error e → E e) :
    Are Q E (pairsWith c as left) :=
  has.forEach fun r hr => are_keep (hpairs r hr) (herror r hr)

/-- Where no key fails, all of them have values. -/
theorem SortKey.eval_eq_of_mapM {order : List SortKey} {keyed : List (List Scalar × Row)}
    (h : (rows.mapM fun row => do
      let key ← order.mapM fun k => k.expr.eval row
      pure (key, row) : Except ExecutionError _) = .ok keyed) :
    ∀ row ∈ rows, ∀ k ∈ order, k.expr.eval row = .ok (k.expr.value row) := by
  intro row hrow k hk
  obtain ⟨x, -, hx⟩ := exists_mem_of_forall₂ (forall₂_of_mapM_eq_ok h).flip hrow
  rcases hkey : order.mapM (fun k => k.expr.eval row) with e | key
  · rw [hkey] at hx
    cases hx
  · obtain ⟨v, -, hv⟩ := exists_mem_of_forall₂ (forall₂_of_mapM_eq_ok hkey).flip hk
    rw [Expr.value_of_eval hv, hv]

/-- Sorting goes wrong where some key fails on some row, or where there are more than a few rows with
keys that contradict each other. -/
theorem SortKey.exists_of_sortRows_error {order : List SortKey} {e : ExecutionError}
    (h : sortRows order rows = .error e) :
    (∃ row ∈ rows, ∃ k ∈ order, k.expr.eval row = .error e) ∨
      e = .contradictoryOrder ∧ Sorting.insertionLimit < rows.length ∧ ¬ AreCoherent order rows := by
  rcases hkeyed : (rows.mapM fun row => do
      let key ← order.mapM fun k => k.expr.eval row
      pure (key, row) : Except ExecutionError _) with e' | keyed
  · rw [sortRows, hkeyed] at h
    cases h
    obtain ⟨row, hrow, hfails⟩ := mapM_eq_error hkeyed
    rcases hkey : order.mapM (fun k => k.expr.eval row) with e' | key
    · rw [hkey] at hfails
      cases hfails
      obtain ⟨k, hk, he⟩ := mapM_eq_error hkey
      exact .inl ⟨row, hrow, k, hk, he⟩
    · rw [hkey] at hfails
      cases hfails
  · have heval := eval_eq_of_mapM hkeyed
    refine .inr ⟨?_, ?_, fun hcoherent => ?_⟩
    · rw [sortRows_eq heval] at h
      split at h
      · cases h
      · exact (Except.error.inj h).symm
    · by_contra hfew
      have hsome : sortKeyed order (rows.map (valued order)) ≠ none :=
        Sorting.sort_ne_none _ (by rw [List.length_map]; exact Nat.le_of_not_lt hfew)
      rw [sortRows_eq heval] at h
      split at h
      · cases h
      · next hnone => exact hsome hnone
    · obtain ⟨sorted, hsorted, -⟩ := exists_sortRows heval hcoherent
      rw [h] at hsorted
      cases hsorted

/-- Sorted rows are the rows in some order. -/
theorem SortKey.perm_of_sortRows {order : List SortKey} {out : List Row}
    (h : sortRows order rows = .ok out) : out.Perm rows := by
  rcases hkeyed : (rows.mapM fun row => do
      let key ← order.mapM fun k => k.expr.eval row
      pure (key, row) : Except ExecutionError _) with e | keyed
  · rw [sortRows, hkeyed] at h
    cases h
  · rw [sortRows_eq (eval_eq_of_mapM hkeyed)] at h
    split at h
    · next hsorted =>
      cases h
      have hperm := (sortKeyed_perm hsorted).map Prod.snd
      rwa [map_snd_valued] at hperm
    · cases h

end Rows

/-! ## Operators -/

/-- All rows that are handed over are as wide as their row type, and all errors are of a kind. -/
def Handover.IsSafe (E : ExecutionError → Prop) (d : Handover) : Prop :=
  (after d.answers id).Are (fun row => row.length = d.rowType.width) E

theorem Handover.IsSafe.isWide {E : ExecutionError → Prop} {d : Handover} (h : d.IsSafe E) :
    d.IsWide := h.row

theorem Handover.IsWide.isSafe {d : Handover} (h : d.IsWide) : d.IsSafe fun _ => True :=
  ⟨h, fun _ _ => trivial⟩

theorem Handover.IsSafe.imp {E E' : ExecutionError → Prop} {d : Handover} (h : d.IsSafe E)
    (hE : ∀ e, E e → E' e) : d.IsSafe E' :=
  ⟨h.row, fun e he => hE e (h.error e he)⟩

/-- All rows at once are as wide as their row type, unless there is an error of the kind. -/
theorem Handover.IsSafe.all {E : ExecutionError → Prop} {d : Handover} (h : d.IsSafe E) :
    (∃ rows, d.answers.bind Answers.all = .ok rows ∧ ∀ row ∈ rows, row.length = d.rowType.width) ∨
      ∃ e, d.answers.bind Answers.all = .error e ∧ E e := by
  rw [← all_after]
  exact Are.all h

/-- What is made of the answers one by one, if it is made of rows of the width only. -/
theorem Handover.IsSafe.are_forEach {Q : Row → Prop} {E : ExecutionError → Prop} {d : Handover}
    (h : d.IsSafe E) {out : Row → Answers}
    (hout : ∀ row, row.length = d.rowType.width → (out row).Are Q E) :
    Are Q E (after (d.answers.map (forEach out)) id) := by
  rw [after_map_forEach]
  exact h.forEach hout

/-- What is made of all rows at once, if it is made of rows of the width only. -/
theorem Handover.IsSafe.are_bind_all {Q : Row → Prop} {E : ExecutionError → Prop} {d : Handover}
    (h : d.IsSafe E) {f : List Row → Except ExecutionError Answers}
    (hf : ∀ rows, d.answers.bind Answers.all = .ok rows →
      (∀ row ∈ rows, row.length = d.rowType.width) → Are Q E (after (f rows) id)) :
    Are Q E (after ((d.answers.bind Answers.all).bind f) id) := by
  rcases h.all with ⟨rows, hrows, hwide⟩ | ⟨e, he, hE⟩
  · rw [hrows]
    exact hf rows hrows hwide
  · rw [he]
    refine are_singleton nofun fun e' he' => ?_
    cases he'
    exact hE

namespace Operator

variable {source : RowSource} {op : Operator} {c : Convention} {slots : List Handover} {t : RowType}
  {E : ExecutionError → Prop}

/-- Joins of safe answers are safe, in pipelines and in generated code. -/
theorem isSafe_join {type : JoinType} {condition : Expr} {l r : Handover} (hl : l.IsSafe E)
    (hr : r.IsSafe E) (hcondition : ∀ row, row.length = l.rowType.width + r.rowType.width →
      ∀ e, c.outcome row condition = .error e → E e) :
    Handover.IsSafe E ⟨l.rowType.join r.rowType (type == .left), c,
      (Operator.join type condition).answers source c [l, r]⟩ := by
  have hpair : ∀ {left right : Row}, left.length = l.rowType.width →
      right.length = r.rowType.width →
        (left ++ right).length = l.rowType.width + r.rowType.width := by
    intro left right hleft hright
    rw [List.length_append, hleft, hright]
  have hwidth : (l.rowType.join r.rowType (type == .left)).width =
      l.rowType.width + r.rowType.width := RowType.width_join ..
  unfold Handover.IsSafe
  rw [hwidth]
  unfold answers
  dsimp only
  by_cases hc : c = .iterator
  · subst hc
    rw [if_pos rfl]
    refine hr.are_bind_all fun rows _ hwide => hl.are_forEach fun left hleft => ?_
    refine RowStream.are_joinRow ?_ (hpair hleft List.length_replicate) ?_
    · exact fun right hright => hpair hleft (hwide right hright)
    · intro right hright e he
      refine hcondition _ (hpair hleft (hwide right hright)) e ?_
      rw [Convention.outcome_iterator]
      exact he
  · rw [if_neg hc]
    refine hl.are_forEach fun left hleft => CodeBlock.are_pairsWith hr ?_ ?_
    · exact fun right hright => hpair hleft hright
    · intro right hright e he
      refine hcondition _ (hpair hleft hright) e ?_
      rw [Convention.outcome_of_ne hc]
      exact he

/-- Sorting safe answers, which is left to pipelines, is safe, if contradictory keys are. -/
theorem isSafe_sort {order : List SortKey} {d : Handover} (hd : d.IsSafe E)
    (hkeys : ∀ k ∈ order, ∀ row, row.length = d.rowType.width →
      ∀ e, k.expr.eval row = .error e → E e)
    (hcontradictory : ∀ rows, d.answers.bind Answers.all = .ok rows →
      Sorting.insertionLimit < rows.length → ¬ SortKey.AreCoherent order rows → E .contradictoryOrder) :
    Handover.IsSafe E ⟨d.rowType, c, (Operator.sort order).answers source c [d]⟩ := by
  refine hd.are_bind_all fun rows hrows hwide => ?_
  refine are_after_map (fun out hout row hrow => ?_) fun e he => ?_
  · exact hwide row ((SortKey.perm_of_sortRows hout).mem_iff.mp hrow)
  · rcases SortKey.exists_of_sortRows_error he with ⟨row, hrow, k, hk, hfails⟩ | ⟨rfl, hmany, hnot⟩
    · exact hkeys k hk row (hwide row hrow) e hfails
    · exact hcontradictory rows hrows hmany hnot

/-- A part of safe answers is safe. -/
theorem isSafe_limit {offset count : Nat} {d : Handover} (hd : d.IsSafe E) :
    Handover.IsSafe E ⟨d.rowType, c, (Operator.limit offset count).answers source c [d]⟩ := by
  unfold Handover.IsSafe at hd ⊢
  unfold answers
  dsimp only
  cases hanswers : d.answers with
  | error e =>
      rw [hanswers] at hd
      exact hd
  | ok as =>
      rw [hanswers] at hd
      exact hd.mono fun x hx => List.mem_of_mem_drop (List.mem_of_mem_take hx)

/-- Handing safe answers over to another convention is safe. -/
theorem isSafe_converter {given : Convention} {d : Handover} (hd : d.IsSafe E) :
    Handover.IsSafe E ⟨d.rowType, c, (Operator.converter given).answers source c [d]⟩ := by
  unfold Handover.IsSafe answers
  dsimp only
  split
  · refine hd.are_bind_all fun rows _ hwide => ?_
    show Are _ _ (after ((Except.ok rows).map (List.map Except.ok)) id)
    refine are_after_map (fun rows' hrows' => ?_) nofun
    cases hrows'
    exact hwide
  · exact hd

/-- An operator over safe answers gives safe ones, if its expressions fail with errors of the kind
only on rows that are as wide as those of all inputs beside each other, and so does a sort of rows with
contradictory keys. -/
theorem isSafe_answers (himplemented : IsImplemented op c (slots.map Handover.convention))
    (htype : op.deriveRowType (slots.map Handover.rowType) = .ok t)
    (hsupplied : op.IsSupplied source) (hfull : op.IsFull) (hslots : ∀ d ∈ slots, d.IsSafe E)
    (hexprs : ∀ e ∈ op.exprs, ∀ row, row.length = RowType.widthOfList (slots.map Handover.rowType) →
      ∀ err, c.outcome row e = .error err → E err)
    (hcontradictory : ∀ order d rows, op = .sort order → slots = [d] →
      d.answers.bind Answers.all = .ok rows → Sorting.insertionLimit < rows.length →
        ¬ SortKey.AreCoherent order rows → E .contradictoryOrder) :
    Handover.IsSafe E ⟨t, c, op.answers source c slots⟩ := by
  have hlength := himplemented.length_inputs
  rw [List.length_map] at hlength
  cases op with
  | values t' rows =>
      obtain rfl := List.length_eq_zero_iff.mp hlength
      obtain rfl : t' = t := Except.ok.inj htype
      refine are_after_map (x := .ok rows) (fun rows' hrows' => ?_) nofun
      cases hrows'
      exact hsupplied
  | scan table t' =>
      obtain rfl := List.length_eq_zero_iff.mp hlength
      obtain rfl : t' = t := Except.ok.inj htype
      obtain ⟨rows, hrows, hwide⟩ := hsupplied
      refine are_after_map (fun rows' hrows' => ?_) fun e he => ?_
      · cases hrows.symm.trans hrows'
        exact hwide
      · cases hrows.symm.trans he
  | filter p =>
      obtain ⟨d, rfl⟩ := List.length_eq_one_iff.mp hlength
      obtain rfl : d.rowType = t := Except.ok.inj htype
      exact (hslots d List.mem_cons_self).are_forEach fun row hrow =>
        are_keep hrow (hexprs p List.mem_cons_self row hrow)
  | project es t' =>
      obtain ⟨d, rfl⟩ := List.length_eq_one_iff.mp hlength
      obtain rfl : t' = t := Except.ok.inj htype
      refine (hslots d List.mem_cons_self).are_forEach fun row hrow => are_singleton ?_ ?_
      · intro out hout
        rw [← (forall₂_of_mapM_eq_ok hout).length_eq]
        exact hfull
      · intro e he
        obtain ⟨x, hx, hfails⟩ := mapM_eq_error he
        exact hexprs x hx row hrow e hfails
  | join type condition =>
      obtain ⟨l, r, rfl⟩ := List.length_eq_two.mp hlength
      obtain rfl : l.rowType.join r.rowType (type == .left) = t := Except.ok.inj htype
      exact isSafe_join (hslots l List.mem_cons_self)
        (hslots r (List.mem_cons_of_mem _ List.mem_cons_self))
        (hexprs condition List.mem_cons_self)
  | sort order =>
      obtain ⟨d, rfl⟩ := List.length_eq_one_iff.mp hlength
      obtain rfl : d.rowType = t := Except.ok.inj htype
      obtain rfl : c = .iterator := by
        generalize [d].map Handover.convention = conventions at himplemented
        cases himplemented
        rfl
      rw [Convention.outcome_iterator] at hexprs
      exact isSafe_sort (hslots d List.mem_cons_self)
        (fun k hk => hexprs k.expr (List.mem_map_of_mem hk))
        fun rows hrows => hcontradictory order d rows rfl rfl hrows
  | limit offset count =>
      obtain ⟨d, rfl⟩ := List.length_eq_one_iff.mp hlength
      obtain rfl : d.rowType = t := Except.ok.inj htype
      exact isSafe_limit (hslots d List.mem_cons_self)
  | converter given =>
      obtain ⟨d, rfl⟩ := List.length_eq_one_iff.mp hlength
      obtain rfl : d.rowType = t := Except.ok.inj htype
      exact isSafe_converter (hslots d List.mem_cons_self)

end Operator

end QueryPlanner
