/-
# Blocks that yield answers

A block of generated code yields answers if whatever fills its hole runs once for each of them, in
their order, where the code for the current row has the row in the form of the block. An error is
left to what fills the hole, as far as that asks for the current row, or ends the block before. What
is generated for filters, projections and joins extends such blocks to such blocks.

* `RowForm.hold` : a row of a row type in a form, positional or as a record;
* `CodeBlock.Yields` : a block that yields answers;
* `Yields.filter`, `Yields.project`, `Yields.join`, `yields_loop` : the blocks that are generated;
* `Yields.runProgram_close` : a block that is closed emits its rows.
-/
import QueryPlanner.Implementor
import QueryPlanner.Proofs.Code.Holes
import QueryPlanner.Proofs.Execution.Statements

namespace QueryPlanner

open Answers Implementor

/-! ## Scopes -/

section Scopes

variable {scope : Scope} {outer : List Scope} {v w : Var} {slot slot' : Slot}

theorem lookup_singleton : Machine.lookup ([(v, slot)] :: outer) v = some slot := by
  rw [Machine.lookup, Dictionary.get?, if_pos rfl]

/-- A variable that was just bound is found. -/
theorem lookup_insert : Machine.lookup (scope.insert v slot :: outer) v = some slot := by
  rw [Machine.lookup, Dictionary.get?_insert, if_pos rfl]

/-- A variable that the innermost scope does not bind is found further out. -/
theorem lookup_of_ne (hne : w ≠ v) (h : scope.get? v = some slot) :
    Machine.lookup ([(w, slot')] :: scope :: outer) v = some slot := by
  rw [Machine.lookup, Dictionary.get?, if_neg hne, Dictionary.get?, Machine.lookup, h]

end Scopes

/-! ## Forms of rows -/

/-- Code for an expression over a row that a variable holds has the outcome of the expression. -/
theorem gives_lowerPositional {e : Expr} {row : Row} {scopes : List Scope} {v : Var}
    (hv : Machine.lookup scopes v = some (.value (.row row))) :
    (CodeExpr.lowerPositional e v).Gives scopes ((e.evalWhole row).map .scalar) :=
  fun emitted => Machine.run_eval_lower e fun c _ =>
    Machine.run_eval_field (m := ⟨scopes, emitted⟩) hv c

namespace Implementor.RowForm

variable {form : RowForm} {t : RowType} {row : Row} {scopes : List Scope} {v : Var}

/-- A row of a row type in this form. -/
def hold (form : RowForm) (t : RowType) (row : Row) : Value :=
  match form with
  | positional => .row row
  | record => .record (t.names.zip row)

/-- The row that is emitted for a row in any form is the row. -/
theorem toRow_hold (h : row.length = t.width) : (form.hold t row).toRow = row := by
  cases form with
  | positional => rfl
  | record => exact List.map_snd_zip (Nat.le_of_eq (h.trans t.length_names.symm))

/-- Code for an expression that reads columns of a row has the outcome of the expression. -/
theorem gives_lower {e : Expr} (hrow : row.length = t.width)
    (he : ∀ c ∈ e.columns, c.index < row.length)
    (hv : Machine.lookup scopes v = some (.value (form.hold t row))) :
    (form.lower e v t).Gives scopes ((e.evalWhole row).map .scalar) := by
  intro emitted
  have hlowers : LowersTo e v t row (form.lower e v t) (form.hold t row) := by
    cases form with
    | positional => exact .positional
    | record => exact .named
  exact hlowers.run_eval (m := ⟨scopes, emitted⟩) he hrow.symm hv

/-- Code for a row of computed values has the row in the form that is asked for. -/
theorem gives_make {exprs : List Expr} {code : Expr → CodeExpr} {x : Expr → Scalar.Outcome}
    (h : ∀ e ∈ exprs, (code e).Gives scopes ((x e).map .scalar)) (hlen : exprs.length = t.width) :
    (form.make (exprs.map code) t).Gives scopes ((exprs.mapM x).map (form.hold t)) := by
  have hrow := CodeExpr.gives_makeRow h
  cases form with
  | positional => exact hrow
  | record =>
      refine hrow.toRecord fun row hvalues => ?_
      have hvalues' := forall₂_of_mapM_eq_ok hvalues
      rw [← hvalues'.length_eq, hlen, RowType.length_names]

end Implementor.RowForm

/-! ## Blocks -/

namespace CodeBlock

variable {source : RowSource} {b : CodeBlock} {value value' : Row → Value} {as : Answers}

/-- A block whatever fills the hole of which runs for each of some answers in turn, where the code
for the current row has the value of the row, or fails with the error. -/
def Yields (source : RowSource) (b : CodeBlock) (value : Row → Value) (as : Answers) : Prop :=
  ∀ body out, (∀ x ∈ as, ∀ scope outer, b.row.Gives (scope :: outer) (x.map value) →
    Emits source body scope outer (after x out)) →
      ∀ scope outer, Emits source (b.splice body) scope outer (forEach out as)

/-- A block that goes on with other answers for each row of the block it extends. `filled` is what
becomes of the extension when its hole is filled. -/
theorem Yields.extend (h : b.Yields source value as) {body : List Statement} {row' : CodeExpr}
    (filled : List Statement → List Statement) {expand : Row → Answers}
    (hfilled : ∀ inner, spliceInto body (some inner) = (filled inner, none))
    (hfails : ∀ e inner scope outer, b.row.Gives (scope :: outer) (.error e) →
      Emits source (filled inner) scope outer [.error e])
    (hexpand : ∀ row, .ok row ∈ as → ∀ inner out, (∀ x ∈ expand row, ∀ scope outer,
      row'.Gives (scope :: outer) (x.map value') → Emits source inner scope outer (after x out)) →
        ∀ scope outer, b.row.Gives (scope :: outer) (.ok (value row)) →
          Emits source (filled inner) scope outer (forEach out (expand row))) :
    (b.extend body row').Yields source value' (forEach expand as) := by
  intro inner out hinner scope outer
  rw [b.splice_extend row' (hfilled inner), forEach_forEach]
  refine h _ _ (fun x hx scope outer hgives => ?_) scope outer
  cases x with
  | error e => exact hfails e inner scope outer hgives
  | ok row =>
      refine hexpand row hx inner out (fun y hy => ?_) scope outer hgives
      exact hinner y (List.mem_flatMap.mpr ⟨.ok row, hx, hy⟩)

/-- The same block with other code for the current row. -/
theorem Yields.withRow (h : b.Yields source value as) {row' : CodeExpr}
    (hrow : ∀ x ∈ as, ∀ scopes, b.row.Gives scopes (x.map value) →
      row'.Gives scopes (x.map value')) : (b.withRow row').Yields source value' as := by
  intro body out hbody
  exact h body out fun x hx scope outer hgives => hbody x hx scope outer (hrow x hx _ hgives)

section Forms

variable {form : RowForm} {t out : RowType} {current : Var}

/-- A block over which a filter is generated yields the rows that the filter keeps. -/
theorem Yields.filter (h : b.Yields source (form.hold t) as) {p : Expr}
    (hwide : ∀ row, .ok row ∈ as → row.length = t.width)
    (hreads : ∀ row, .ok row ∈ as → ∀ c ∈ p.columns, c.index < row.length) :
    (b.extend [.assign current b.row, .ifThen (form.lower p current t) [.hole]]
      (.var current)).Yields source (form.hold t)
        (forEach (fun row => keep row (p.evalWhole row)) as) := by
  refine h.extend (fun inner => [.assign current b.row, .ifThen (form.lower p current t) inner])
    (fun inner => by simp [spliceInto, Statement.splice])
    (fun e inner scope outer hgives => emits_assign_error hgives) ?_
  intro row hrow inner out hinner scope outer hgives
  refine emits_assign hgives ?_
  have hp : (form.lower p current t).Gives
      (scope.insert current (.value (form.hold t row)) :: outer) ((p.evalWhole row).map .scalar) :=
    RowForm.gives_lower (hwide row hrow) (hreads row hrow) lookup_insert
  exact emits_keep hp fun hkept => hinner (.ok row) hkept [] _ (CodeExpr.gives_var lookup_insert)

/-- A block over which a projection is generated yields the computed rows. -/
theorem Yields.project (h : b.Yields source (form.hold t) as) {exprs : List Expr}
    (hwide : ∀ row, .ok row ∈ as → row.length = t.width)
    (hreads : ∀ row, .ok row ∈ as → ∀ e ∈ exprs, ∀ c ∈ e.columns, c.index < row.length)
    (hlen : exprs.length = out.width) :
    (b.extend [.assign current b.row, .hole]
      (form.make (exprs.map fun e => form.lower e current t) out)).Yields source (form.hold out)
        (forEach (fun row => [exprs.mapM (Expr.evalWhole row)]) as) := by
  refine h.extend (fun inner => .assign current b.row :: inner)
    (fun inner => by simp [spliceInto, Statement.splice])
    (fun e inner scope outer hgives => emits_assign_error hgives) ?_
  intro row hrow inner out' hinner scope outer hgives
  refine emits_assign hgives ?_
  rw [forEach_singleton]
  refine hinner _ (List.mem_singleton_self _) _ _ (RowForm.gives_make (fun e he => ?_) hlen)
  exact RowForm.gives_lower (hwide row hrow) (hreads row hrow e he) lookup_insert

/-- Generated code that loops over a pipeline yields what the pipeline answers. -/
theorem yields_loop (p : Pipeline) (cursor : Var) :
    CodeBlock.Yields source ⟨[.openCursor cursor p,
      .whileDo (.hasNext cursor) [.assign current (.next cursor), .hole]], .var current⟩
        (RowForm.positional.hold t) (after (p.answers source) id) := by
  intro body out hbody scope outer
  -- the hole is in the body of the loop, behind the assignment of the row
  have hsplice : CodeBlock.splice ⟨[.openCursor cursor p,
      .whileDo (.hasNext cursor) [.assign current (.next cursor), .hole]], .var current⟩ body =
        [.openCursor cursor p,
          .whileDo (.hasNext cursor) (.assign current (.next cursor) :: body)] := by
    simp [CodeBlock.splice, spliceInto, Statement.splice]
  rw [hsplice]
  unfold Pipeline.answers at hbody ⊢
  rcases hc : p.cursor source with e | c
  · exact emits_openCursor_error hc
  · rw [hc] at hbody
    refine emits_openCursor hc ?_
    refine emits_loop (I := fun _ => True) (fun _ _ _ => trivial) (fun row hrow scope _ => ?_)
      trivial (by rw [Dictionary.get?_insert, if_pos rfl]) rfl
    exact hbody (.ok row) hrow _ _ (CodeExpr.gives_var lookup_singleton)

/-- The pairs of a left row with the rows that the right side of an inner join answers with, in
generated code. -/
def pairsWith (c : Expr) (right : Answers) (left : Row) : Answers :=
  forEach (fun row => keep (left ++ row) (c.evalWhole (left ++ row))) right

/-- A block over which an inner join is generated yields the pairs of its rows with those of the
pipeline on the right that meet the condition; the pipeline is opened for each of them. -/
theorem Yields.join {l r : RowType} {right : Pipeline} {c : Expr}
    {left cursor inner joined : Var} (h : b.Yields source (RowForm.positional.hold l) as)
    (hleft : inner ≠ left) (hcursor : cursor ≠ left) :
    (b.extend
      [.assign left b.row, .openCursor cursor right,
        .whileDo (.hasNext cursor)
          [.assign inner (.next cursor), .assign joined (.concat (.var left) (.var inner)),
            .ifThen (.lowerPositional c joined) [.hole]]]
      (.var joined)).Yields source (RowForm.positional.hold (l.join r false))
        (forEach (pairsWith c (after (right.answers source) id)) as) := by
  refine h.extend (fun body =>
    [.assign left b.row, .openCursor cursor right,
      .whileDo (.hasNext cursor)
        [.assign inner (.next cursor), .assign joined (.concat (.var left) (.var inner)),
          .ifThen (.lowerPositional c joined) body]])
    (fun body => by simp [spliceInto, Statement.splice])
    (fun e inner scope outer hgives => emits_assign_error hgives) ?_
  intro x hx body out hbody scope outer hgives
  refine emits_assign hgives ?_
  unfold pairsWith at hbody ⊢
  rw [forEach_forEach]
  unfold Pipeline.answers at hbody ⊢
  rcases hopened : right.cursor source with e | opened
  · exact emits_openCursor_error hopened
  rw [hopened] at hbody
  refine emits_openCursor hopened ?_
  -- the left row stays bound while the cursor moves on
  refine emits_loop (I := fun scope => scope.get? left = some (.value (.row x))) ?_ ?_ ?_
    (by rw [Dictionary.get?_insert, if_pos rfl]) rfl
  · intro scope rest hscope
    rw [Dictionary.get?_insert, if_neg hcursor]
    exact hscope
  · intro y hy scope hscope
    have hconcat : (CodeExpr.concat (.var left) (.var inner)).Gives
        ([(inner, .value (.row y))] :: scope :: outer) (.ok (.row (x ++ y))) :=
      CodeExpr.Gives.concat (CodeExpr.gives_var (lookup_of_ne hleft hscope))
        (CodeExpr.gives_var lookup_singleton)
    refine emits_assign hconcat ?_
    have hcondition : (CodeExpr.lowerPositional c joined).Gives
        (Dictionary.insert [(inner, .value (.row y))] joined (.value (.row (x ++ y))) :: scope ::
          outer) ((c.evalWhole (x ++ y)).map .scalar) := gives_lowerPositional lookup_insert
    refine emits_keep hcondition fun hkept => ?_
    refine hbody (.ok (x ++ y)) ?_ [] _ (CodeExpr.gives_var lookup_insert)
    exact List.mem_flatMap.mpr ⟨.ok y, hy, hkept⟩
  · rw [Dictionary.get?_insert, if_neg hcursor, Dictionary.get?_insert, if_pos rfl]
    rfl

/-- A program of a block that is closed gives the rows that the block yields. -/
theorem Yields.runProgram_close (h : b.Yields source (form.hold t) as)
    (hwide : ∀ row, .ok row ∈ as → row.length = t.width) : runProgram source b.close = all as := by
  have hemits : Emits source b.close [] [] (forEach (fun row => [.ok row]) as) := by
    refine h [.emit b.row] _ (fun x hx scope outer hgives => ?_) [] []
    have hemit : Emits source [.emit b.row] scope outer _ := emits_emit hgives
    cases x with
    | error e => exact hemit
    | ok row =>
        rw [show (Except.ok row).map (form.hold t) = .ok (form.hold t row) from rfl, after_ok,
          RowForm.toRow_hold (hwide row hx)] at hemit
        exact hemit
  rw [forEach_ok] at hemits
  exact runProgram_of_emits hemits

end Forms

end CodeBlock

end QueryPlanner
