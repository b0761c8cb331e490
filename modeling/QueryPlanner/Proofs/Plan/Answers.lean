/-
# What operators answer

What an operator answers in a convention, over what its inputs answer: errors are passed on by
whatever goes through rows one by one, and are the end of what needs all rows. Where its inputs
give rows and all of its expressions evaluate on them, an operator gives rows too, and the
conventions do not matter.

* `Handover` : what is handed over from one operator to another;
* `Operator.answers` : what an operator answers;
* `Operator.Makes` : what an operator makes of rows, whatever the conventions;
* `exists_makes` : where all expressions evaluate, and rows can be sorted, it answers with that.
-/
import QueryPlanner.Proofs.Execution.Blocks
import QueryPlanner.Proofs.Memo.Meaning

namespace QueryPlanner

open Answers

/-- What is handed over: answers, the row type of the rows among them, and the convention. -/
structure Handover where
  rowType : RowType
  convention : Convention
  answers : Except ExecutionError Answers

/-- All rows that are handed over are as wide as their row type. -/
def Handover.IsWide (h : Handover) : Prop :=
  ∀ row, .ok row ∈ after h.answers id → row.length = h.rowType.width

namespace Answers

variable {x : Except ExecutionError Answers}

/-- Whatever can be opened answers with all of its rows, or not. -/
theorem all_after (x : Except ExecutionError Answers) : all (after x id) = x.bind all := by
  cases x with
  | error e => rfl
  | ok as => rfl

theorem after_map_forEach (out : Row → Answers) (x : Except ExecutionError Answers) :
    after (x.map (forEach out)) id = forEach out (after x id) := by
  cases x with
  | error e => rfl
  | ok as => rfl

/-- Rows that were all there before they are handed over are handed over. -/
theorem map_bind_all {r : Except ExecutionError (List Row)} (h : r.map (List.map Except.ok) = x) :
    (x.bind all).map (List.map Except.ok) = x := by
  subst h
  cases r with
  | error e => rfl
  | ok rows => exact congrArg (Except.map (List.map Except.ok)) (all_map_ok rows)

end Answers

/-- The outcome of an expression in a convention: what is pulled from stops at the operand that
settles it, and generated code evaluates all operands first. -/
def Convention.outcome (c : Convention) (row : Row) (e : Expr) : Scalar.Outcome :=
  if c = .iterator then e.eval row else e.evalWhole row

theorem Convention.outcome_iterator : Convention.iterator.outcome = Expr.eval := by
  funext row e
  exact if_pos rfl

theorem Convention.outcome_of_ne {c : Convention} (h : c ≠ .iterator) :
    c.outcome = Expr.evalWhole := by
  funext row e
  exact if_neg h

/-- An expression that evaluates has its value for outcome in every convention. -/
theorem Convention.outcome_eq {c : Convention} {row : Row} {e : Expr} (h : e.Evaluates row) :
    c.outcome row e = .ok (e.value row) := by
  unfold outcome
  split
  · exact h.eval
  · exact h.evalWhole

namespace Operator

/-! ## Answers -/

/-- What an operator answers in a convention, over what it is handed. -/
def answers (source : RowSource) (c : Convention) (op : Operator) (inputs : List Handover) :
    Except ExecutionError Answers :=
  match op, inputs with
  | .values _ rows, _ => .ok (rows.map .ok)
  | .scan table _, _ => (source.rows table).map (List.map .ok)
  | .filter p, [input] => input.answers.map (forEach fun row => keep row (c.outcome row p))
  | .project exprs _, [input] =>
      input.answers.map (forEach fun row => [exprs.mapM (c.outcome row)])
  | .join type condition, [left, right] =>
      if c = .iterator then
        (right.answers.bind all).bind fun rows =>
          left.answers.map (forEach (RowStream.joinRow type condition right.rowType.width rows))
      else left.answers.map (forEach (CodeBlock.pairsWith condition (after right.answers id)))
  | .sort order, [input] =>
      (input.answers.bind all).bind fun rows => (SortKey.sortRows order rows).map (List.map .ok)
  | .limit offset count, [input] => input.answers.map fun as => (as.drop offset).take count
  | .converter _, [input] =>
      if c = .iterator then (input.answers.bind all).map (List.map .ok) else input.answers
  | _, _ => .ok []

/-- An operator reads nothing outside of the rows that it is handed, and projects to as many values
as it has columns. -/
def Reads (op : Operator) (inputs : List Handover) : Prop :=
  match op, inputs with
  | .filter p, [input] =>
      ∀ row, .ok row ∈ after input.answers id → ∀ c ∈ p.columns, c.index < row.length
  | .project exprs t, [input] => exprs.length = t.width ∧
      ∀ row, .ok row ∈ after input.answers id → ∀ e ∈ exprs, ∀ c ∈ e.columns, c.index < row.length
  | _, _ => True

/-! ## Rows -/

/-- What an operator makes of the rows of its inputs. -/
inductive Makes (source : RowSource) : Operator → List (RowType × List Row) → List Row → Prop
  | values {t : RowType} {rows : List Row} : Makes source (.values t rows) [] rows
  | scan {table : TableName} {t : RowType} {rows : List Row} (supplied : source.rows table = .ok rows) :
      Makes source (.scan table t) [] rows
  | filter {p : Expr} {t : RowType} {rows : List Row} :
      Makes source (.filter p) [(t, rows)] (rows.filter p.holds)
  | project {exprs : List Expr} {out t : RowType} {rows : List Row} :
      Makes source (.project exprs out) [(t, rows)] (rows.map fun row => exprs.map (Expr.value row))
  | join {type : JoinType} {condition : Expr} {t u : RowType} {ls rs : List Row} :
      Makes source (.join type condition) [(t, ls), (u, rs)]
        (ls.flatMap (type.pairRows condition u.width rs))
  | sort {order : List SortKey} {t : RowType} {rows sorted : List Row}
      (sorts : SortKey.Sorts order rows sorted) : Makes source (.sort order) [(t, rows)] sorted
  | limit {offset count : Nat} {t : RowType} {rows : List Row} :
      Makes source (.limit offset count) [(t, rows)] ((rows.drop offset).take count)
  | converter {given : Convention} {t : RowType} {rows : List Row} :
      Makes source (.converter given) [(t, rows)] rows

/-- All expressions of an operator evaluate on all rows that they are evaluated on. -/
def EvaluatesOn (op : Operator) (inputs : List (RowType × List Row)) : Prop :=
  match op, inputs with
  | .filter p, [(_, rows)] => ∀ row ∈ rows, p.Evaluates row
  | .project exprs _, [(_, rows)] => ∀ row ∈ rows, ∀ e ∈ exprs, e.Evaluates row
  | .join _ condition, [(_, ls), (_, rs)] => ∀ l ∈ ls, ∀ r ∈ rs, condition.Evaluates (l ++ r)
  | .sort order, [(_, rows)] => ∀ row ∈ rows, ∀ k ∈ order, k.expr.Evaluates row
  | _, _ => True

/-- Where an operator sorts rows, the values of each key are coherent. -/
def IsCoherentOn (op : Operator) (inputs : List (RowType × List Row)) : Prop :=
  match op, inputs with
  | .sort order, [(_, rows)] => SortKey.AreCoherent order rows
  | _, _ => True

/-- The rows of an operator that has rows of its own are as wide as their row type, and those of a
table are known. -/
def IsSupplied (source : RowSource) : Operator → Prop
  | .values t rows => ∀ row ∈ rows, row.length = t.width
  | .scan table t => ∃ rows, source.rows table = .ok rows ∧ ∀ row ∈ rows, row.length = t.width
  | _ => True

end Operator

/-- The pairs in generated code are those of an inner join. -/
theorem CodeBlock.forEach_pairsWith {c : Expr} {ls rs : List Row} (padding : Nat)
    (h : ∀ l ∈ ls, ∀ r ∈ rs, c.Evaluates (l ++ r)) :
    forEach (pairsWith c (rs.map .ok)) (ls.map .ok) =
      (ls.flatMap (JoinType.inner.pairRows c padding rs)).map .ok := by
  rw [forEach_map_ok, List.map_flatMap]
  refine List.flatMap_congr fun l hl => ?_
  have hkeep : forEach (fun row => keep row (c.evalWhole row)) ((rs.map (l ++ ·)).map .ok) =
      ((rs.map (l ++ ·)).filter c.holds).map .ok := by
    refine forEach_keep fun row hrow => ?_
    obtain ⟨r, hr, rfl⟩ := List.mem_map.mp hrow
    exact (h l hl r hr).evalWhole
  unfold pairsWith JoinType.pairRows
  dsimp only
  rw [if_neg (by simp), ← hkeep, forEach_map_ok, forEach_map_ok, List.flatMap_map]

/-- Rows of a row type, handed over in a convention. -/
def Handover.ofRows (slot : Convention × RowType × List Row) : Handover :=
  ⟨slot.2.1, slot.1, .ok (slot.2.2.map .ok)⟩

namespace Operator

variable {source : RowSource} {op : Operator} {c : Convention}

/-- An operator makes one thing of the rows of its inputs. -/
theorem Makes.unique {inputs : List (RowType × List Row)} {rows rows' : List Row}
    (h : op.Makes source inputs rows) (h' : op.Makes source inputs rows') : rows = rows' := by
  cases h with
  | scan supplied =>
      cases h' with
      | scan supplied' => exact Except.ok.inj (supplied.symm.trans supplied')
  | sort sorts =>
      cases h' with
      | sort sorts' => exact sorts.unique sorts'
  | _ =>
      cases h'
      rfl

/-- Over rows on which all of its expressions evaluate, and which can be sorted where it sorts them, an
operator answers with the rows that it makes of them, whatever the conventions. -/
theorem exists_makes {slots : List (Convention × RowType × List Row)}
    (himplemented : IsImplemented op c (slots.map Prod.fst)) (hsupplied : op.IsSupplied source)
    (h : op.EvaluatesOn (slots.map Prod.snd)) (hcoherent : op.IsCoherentOn (slots.map Prod.snd)) :
    ∃ rows, op.Makes source (slots.map Prod.snd) rows ∧
      op.answers source c (slots.map Handover.ofRows) = .ok (rows.map .ok) := by
  have hlength := himplemented.length_inputs
  rw [List.length_map] at hlength
  cases op with
  | values t rows =>
      obtain rfl := List.length_eq_zero_iff.mp hlength
      exact ⟨rows, .values, rfl⟩
  | scan table t =>
      obtain rfl := List.length_eq_zero_iff.mp hlength
      obtain ⟨rows, hrows, -⟩ := hsupplied
      refine ⟨rows, .scan hrows, ?_⟩
      unfold answers
      dsimp only
      rw [hrows]
      rfl
  | filter p =>
      obtain ⟨⟨d, t, rows⟩, rfl⟩ := List.length_eq_one_iff.mp hlength
      refine ⟨_, .filter, congrArg Except.ok (forEach_keep fun row hrow => ?_)⟩
      exact Convention.outcome_eq (h row hrow)
  | project exprs t =>
      obtain ⟨⟨d, t, rows⟩, rfl⟩ := List.length_eq_one_iff.mp hlength
      refine ⟨_, .project, congrArg Except.ok (forEach_compute fun row hrow => ?_)⟩
      exact mapM_eq_ok_map fun e he => Convention.outcome_eq (h row hrow e he)
  | join type condition =>
      obtain ⟨⟨d, t, ls⟩, ⟨d', u, rs⟩, rfl⟩ := List.length_eq_two.mp hlength
      refine ⟨_, .join, ?_⟩
      by_cases hc : c = .iterator
      · subst hc
        show Except.bind (all (rs.map .ok)) _ = _
        rw [all_map_ok]
        exact congrArg Except.ok (RowStream.forEach_joinRow h)
      · -- only inner joins are generated code
        cases himplemented with
        | pulled => exact absurd rfl hc
        | compiledJoin => exact congrArg Except.ok (CodeBlock.forEach_pairsWith u.width h)
  | sort order =>
      obtain ⟨⟨d, t, rows⟩, rfl⟩ := List.length_eq_one_iff.mp hlength
      obtain ⟨sorted, hsorted, hsorts⟩ := SortKey.exists_sortRows (fun row hrow k hk => (h row hrow k hk).eval) hcoherent
      refine ⟨sorted, .sort hsorts, ?_⟩
      show Except.bind (all (rows.map .ok)) _ = _
      rw [all_map_ok]
      show (SortKey.sortRows order rows).map _ = _
      rw [hsorted]
      rfl
  | limit offset count =>
      obtain ⟨⟨d, t, rows⟩, rfl⟩ := List.length_eq_one_iff.mp hlength
      refine ⟨_, .limit, congrArg Except.ok ?_⟩
      show (((rows.map Except.ok).drop offset).take count : Answers) =
        ((rows.drop offset).take count).map Except.ok
      rw [List.map_take, List.map_drop]
  | converter given =>
      obtain ⟨⟨d, t, rows⟩, rfl⟩ := List.length_eq_one_iff.mp hlength
      refine ⟨rows, .converter, ?_⟩
      by_cases hc : c = .iterator
      · subst hc
        exact map_bind_all (r := .ok rows) rfl
      · exact if_neg hc

end Operator

end QueryPlanner
