/-
# Columns within reach

An expression that reads no columns beyond those of a row only fails for what the values are. What
rewriting makes of expressions reads what these read, at the places where it now stands.

* `Expr.IsWithin` : an expression that reads the first columns only;
* `Expr.columns_substitute` : what an expression reads when columns were replaced;
* `isWithin_inlineList`, `isWithin_mapColumns`, `isWithin_conjunction` : what rewriting keeps;
* `IsWithin.isOfValues_eval`, `IsWithin.isOfValues_evalWhole` : how such an expression fails;
* `Operator.IsWithin` : an operator whose expressions are within its inputs.
-/
import QueryPlanner.Operator
import QueryPlanner.Proofs.Rewriting

namespace QueryPlanner

/-- The errors that come of the values in rows, and not of how code is put together. -/
def ExecutionError.IsOfValues : ExecutionError → Prop
  | typeMismatch _ | divisionByZero | overflow | unknownFunction _ => True
  | _ => False

/-! ## Operations -/

namespace Scalar

/-- An outcome that is a value, or an error that comes of values. -/
def Outcome.IsOfValues (o : Outcome) : Prop := ∀ e, o = .error e → e.IsOfValues

theorem isOfValues_ok (v : Scalar) : Outcome.IsOfValues (.ok v) := nofun

theorem isOfValues_error {e : ExecutionError} (h : e.IsOfValues) : Outcome.IsOfValues (.error e) := by
  intro e' he'
  cases he'
  exact h

theorem isOfValues_mismatch (operation : String) (values : List Scalar) :
    Outcome.IsOfValues (mismatch operation values) := isOfValues_error trivial

theorem isOfValues_ofInt? (n : Int) : Outcome.IsOfValues (ofInt? n) := by
  unfold ofInt?
  split
  · exact isOfValues_ok _
  · exact isOfValues_error trivial

theorem isOfValues_integerArithmetic (op : BinaryOp) (a b : Int64) :
    Outcome.IsOfValues (integerArithmetic op a b) := by
  unfold integerArithmetic
  split
  · exact isOfValues_ofInt? _
  · exact isOfValues_ofInt? _
  · exact isOfValues_ofInt? _
  · split
    · exact isOfValues_error trivial
    · exact isOfValues_ofInt? _

theorem isOfValues_arithmetic (op : BinaryOp) (l r : Scalar) :
    Outcome.IsOfValues (arithmetic op l r) := by
  unfold arithmetic
  split
  · exact isOfValues_integerArithmetic _ _ _
  · split
    · exact isOfValues_ok _
    · exact isOfValues_mismatch _ _

theorem isOfValues_binary (op : BinaryOp) (l r : Scalar) : Outcome.IsOfValues (binary op l r) := by
  unfold binary
  split
  · exact isOfValues_ok _
  · split
    · exact isOfValues_arithmetic _ _ _
    · split
      · exact isOfValues_ok _
      · exact isOfValues_mismatch _ _

theorem isOfValues_unary (op : UnaryOp) (v : Scalar) : Outcome.IsOfValues (unary op v) := by
  unfold unary
  split
  · exact isOfValues_ok _
  · exact isOfValues_ok _
  · exact isOfValues_ok _
  · exact isOfValues_ok _
  · exact isOfValues_ofInt? _
  · exact isOfValues_ok _
  · exact isOfValues_mismatch _ _

theorem isOfValues_valueOn? {f : Function} {v : Scalar} {o : Outcome} (h : f.valueOn? v = some o) :
    o.IsOfValues := by
  unfold Function.valueOn? at h
  split at h
  · cases h
    exact isOfValues_ok _
  · cases h
    exact isOfValues_ok _
  · cases h
    exact isOfValues_ofInt? _
  · cases h
    exact isOfValues_ofInt? _
  · cases h
    exact isOfValues_ok _
  · cases h

theorem isOfValues_call (name : String) (args : List Scalar) :
    Outcome.IsOfValues (call name args) := by
  unfold call
  split
  · exact isOfValues_ok _
  · exact isOfValues_ok _
  · next f v _ _ _ =>
      rcases ho : f.valueOn? v with _ | o
      · exact isOfValues_mismatch _ _
      · exact isOfValues_valueOn? ho
  · exact isOfValues_mismatch _ _
  · exact isOfValues_error trivial

/-- A conjunction of such outcomes is one. -/
theorem isOfValues_allOf {os : List Outcome} (h : ∀ o ∈ os, o.IsOfValues) (missing : Bool) :
    (allOf missing os).IsOfValues := by
  induction os generalizing missing with
  | nil => exact isOfValues_ok _
  | cons o rest ih =>
      obtain ⟨ho, hrest⟩ := List.forall_mem_cons.mp h
      unfold allOf
      split
      · next heq => cases heq
      · next heq =>
          cases heq
          exact ho
      · exact isOfValues_ok _
      · next heq =>
          cases heq
          exact ih hrest missing
      · next heq =>
          cases heq
          exact ih hrest true
      · exact isOfValues_mismatch _ _

/-- So is a disjunction. -/
theorem isOfValues_anyOf {os : List Outcome} (h : ∀ o ∈ os, o.IsOfValues) (missing : Bool) :
    (anyOf missing os).IsOfValues := by
  induction os generalizing missing with
  | nil => exact isOfValues_ok _
  | cons o rest ih =>
      obtain ⟨ho, hrest⟩ := List.forall_mem_cons.mp h
      unfold anyOf
      split
      · next heq => cases heq
      · next heq =>
          cases heq
          exact ho
      · exact isOfValues_ok _
      · next heq =>
          cases heq
          exact ih hrest missing
      · next heq =>
          cases heq
          exact ih hrest true
      · exact isOfValues_mismatch _ _

/-- What follows on such an outcome is one, if it is on every value. -/
theorem Outcome.IsOfValues.bind {o : Outcome} {f : Scalar → Outcome} (ho : o.IsOfValues)
    (hf : ∀ v, (f v).IsOfValues) : Outcome.IsOfValues (o.bind f) := by
  cases o with
  | error e => exact ho
  | ok v => exact hf v

end Scalar

namespace Expr

open Scalar

variable {row : Row} {width : Nat} {e : Expr} {es : List Expr}

/-! ## Expressions -/

/-- An expression that reads no columns but the first `width` ones. -/
def IsWithin (width : Nat) (e : Expr) : Prop := ∀ c ∈ e.columns, c.index < width

theorem forall_mem_columnsOfList :
    (∀ c ∈ columnsOfList es, c.index < width) ↔ ∀ e ∈ es, e.IsWithin width := by
  rw [columnsOfList_eq]
  simp only [List.mem_flatMap, IsWithin]
  constructor
  · exact fun h e he c hc => h c ⟨e, he, hc⟩
  · rintro h c ⟨e, he, hc⟩
    exact h e he c hc

mutual

/-- An expression within a row has a value there, or an error that comes of values. -/
theorem IsWithin.isOfValues_eval : ∀ {e : Expr}, e.IsWithin row.length →
    Outcome.IsOfValues (e.eval row)
  | column c, h => by
      rw [eval, List.getElem?_eq_getElem (h c (List.mem_singleton_self c))]
      exact isOfValues_ok _
  | literal v, _ => isOfValues_ok v
  | binary op l r, h => by
      have hl : l.IsWithin row.length := fun c hc => h c (List.mem_append_left _ hc)
      have hr : r.IsWithin row.length := fun c hc => h c (List.mem_append_right _ hc)
      exact hl.isOfValues_eval.bind fun v => hr.isOfValues_eval.bind fun w => isOfValues_binary op v w
  | unary op e, h => by
      have he : e.IsWithin row.length := h
      exact he.isOfValues_eval.bind fun v => isOfValues_unary op v
  | call name args, h => by
      have hargs := isOfValues_evalList args h
      rw [eval]
      rcases hvalues : (evalList row args).mapM id with x | values
      · intro x' hx'
        cases hx'
        obtain ⟨o, ho, hfails⟩ := mapM_eq_error hvalues
        exact hargs o ho x hfails
      · exact isOfValues_call name values
  | and es, h => isOfValues_allOf (isOfValues_evalList es h) false
  | or es, h => isOfValues_anyOf (isOfValues_evalList es h) false

theorem isOfValues_evalList : ∀ es : List Expr, (∀ c ∈ columnsOfList es, c.index < row.length) →
    ∀ o ∈ evalList row es, Outcome.IsOfValues o
  | [], _ => fun o ho => absurd ho List.not_mem_nil
  | e :: es, h => by
      have he : e.IsWithin row.length := fun c hc => h c (List.mem_append_left _ hc)
      rw [evalList]
      exact List.forall_mem_cons.mpr ⟨he.isOfValues_eval,
        isOfValues_evalList es fun c hc => h c (List.mem_append_right _ hc)⟩

end

mutual

/-- What an expression leaves out fails no other way. -/
theorem IsWithin.isOfValues_omittedFailure {x : ExecutionError} : ∀ {e : Expr},
    e.IsWithin row.length → e.omittedFailure row = some x → x.IsOfValues
  | column c, _, hx => by cases hx
  | literal v, _, hx => by cases hx
  | binary op l r, h, hx => by
      have hl : l.IsWithin row.length := fun c hc => h c (List.mem_append_left _ hc)
      have hr : r.IsWithin row.length := fun c hc => h c (List.mem_append_right _ hc)
      rw [omittedFailure] at hx
      split at hx
      · next hfails =>
          cases hx
          exact hl.isOfValues_omittedFailure hfails
      · cases hx
      · exact hr.isOfValues_omittedFailure hx
  | unary op e, h, hx => by
      have he : e.IsWithin row.length := h
      exact he.isOfValues_omittedFailure hx
  | call name args, h, hx => isOfValues_omittedIn args _ h hx
  | and es, h, hx => isOfValues_omittedIn es _ h hx
  | or es, h, hx => isOfValues_omittedIn es _ h hx

theorem isOfValues_omittedIn {x : ExecutionError} : ∀ (es : List Expr) (settles : Scalar → Bool),
    (∀ c ∈ columnsOfList es, c.index < row.length) → omittedIn row settles es = some x →
      x.IsOfValues
  | [], _, _, hx => by cases hx
  | e :: es, settles, h, hx => by
      have he : e.IsWithin row.length := fun c hc => h c (List.mem_append_left _ hc)
      have hes : ∀ c ∈ columnsOfList es, c.index < row.length :=
        fun c hc => h c (List.mem_append_right _ hc)
      rw [omittedIn] at hx
      split at hx
      · next hfails =>
          cases hx
          exact he.isOfValues_omittedFailure hfails
      · cases hx
      · split at hx
        · exact isOfValues_firstFailure es hes hx
        · exact isOfValues_omittedIn es settles hes hx

theorem isOfValues_firstFailure {x : ExecutionError} : ∀ es : List Expr,
    (∀ c ∈ columnsOfList es, c.index < row.length) → firstFailure row es = some x → x.IsOfValues
  | [], _, hx => by cases hx
  | e :: es, h, hx => by
      have he : e.IsWithin row.length := fun c hc => h c (List.mem_append_left _ hc)
      rw [firstFailure] at hx
      split at hx
      · next hfails =>
          cases hx
          exact he.isOfValues_omittedFailure hfails
      · next hfails =>
          cases hx
          exact he.isOfValues_eval _ hfails
      · exact isOfValues_firstFailure es (fun c hc => h c (List.mem_append_right _ hc)) hx

end

/-- As a whole, an expression within a row fails no other way. -/
theorem IsWithin.isOfValues_evalWhole (h : e.IsWithin row.length) :
    Outcome.IsOfValues (e.evalWhole row) := by
  unfold evalWhole
  split
  · next hfails => exact isOfValues_error (h.isOfValues_omittedFailure hfails)
  · exact h.isOfValues_eval

/-! ## Rewriting -/

mutual

/-- Where columns are replaced, what replaces them is read. -/
theorem columns_substitute (σ : Column → Expr) : ∀ e : Expr,
    (e.substitute σ).columns = e.columns.flatMap fun c => (σ c).columns
  | column c => (List.flatMap_singleton ..).symm
  | literal v => rfl
  | binary op l r => by
      rw [substitute, columns, columns, List.flatMap_append, columns_substitute σ l,
        columns_substitute σ r]
  | unary op e => columns_substitute σ e
  | call name args => columnsOfList_substituteList σ args
  | and es => columnsOfList_substituteList σ es
  | or es => columnsOfList_substituteList σ es

theorem columnsOfList_substituteList (σ : Column → Expr) : ∀ es : List Expr,
    columnsOfList (substituteList σ es) = (columnsOfList es).flatMap fun c => (σ c).columns
  | [] => rfl
  | e :: es => by
      rw [substituteList, columnsOfList, columnsOfList, List.flatMap_append, columns_substitute σ e,
        columnsOfList_substituteList σ es]

end

/-- Columns may be moved to other places within a row. -/
theorem IsWithin.mapColumns {width' : Nat} {f : Nat → Nat} (h : e.IsWithin width)
    (hf : ∀ i < width, f i < width') : (e.mapColumns f).IsWithin width' := by
  unfold IsWithin
  rw [mapColumns_eq_substitute, columns_substitute]
  intro c hc
  obtain ⟨c', hc', hmem⟩ := List.mem_flatMap.mp hc
  rw [columns, List.mem_singleton] at hmem
  subst hmem
  exact hf c'.index (h c' hc')

/-- Inlined expressions read what the inner ones do. -/
theorem isWithin_inlineList {inner merged : List Expr} (h : inlineList inner es = some merged)
    (hinner : ∀ e ∈ inner, e.IsWithin width) : ∀ e ∈ merged, e.IsWithin width := by
  obtain ⟨rfl, hrange⟩ := inlineList_eq_substituteList inner h
  rw [← forall_mem_columnsOfList, columnsOfList_substituteList]
  intro c hc
  obtain ⟨c', hc', hmem⟩ := List.mem_flatMap.mp hc
  unfold inlined at hmem
  rw [List.getElem?_eq_getElem (hrange c' hc')] at hmem
  exact hinner _ (List.getElem_mem _) c hmem

/-- There are as many inlined expressions as there were before. -/
theorem length_inlineList {inner merged : List Expr} (h : inlineList inner es = some merged) :
    merged.length = es.length := by
  obtain ⟨rfl, -⟩ := inlineList_eq_substituteList inner h
  rw [substituteList_eq, List.length_map]

mutual

/-- Conjuncts read no more than the predicate. -/
theorem IsWithin.of_mem_conjuncts {x : Expr} : ∀ {e : Expr}, e.IsWithin width → x ∈ e.conjuncts →
    x.IsWithin width
  | and es, h, hx => isWithin_of_mem_conjunctsOfList es h hx
  | column _, h, hx | literal _, h, hx | binary .., h, hx | unary .., h, hx | call .., h, hx
  | or _, h, hx => List.mem_singleton.mp hx ▸ h

theorem isWithin_of_mem_conjunctsOfList {x : Expr} : ∀ es : List Expr,
    (∀ c ∈ columnsOfList es, c.index < width) → x ∈ conjunctsOfList es → x.IsWithin width
  | [], _, hx => absurd hx List.not_mem_nil
  | e :: es, h, hx => by
      have he : e.IsWithin width := fun c hc => h c (List.mem_append_left _ hc)
      exact (List.mem_append.mp hx).elim he.of_mem_conjuncts
        (isWithin_of_mem_conjunctsOfList es fun c hc => h c (List.mem_append_right _ hc))

end

/-- A conjunction reads what its operands do. -/
theorem isWithin_conjunction (h : ∀ e ∈ es, e.IsWithin width) : (conjunction es).IsWithin width := by
  rcases es with _ | ⟨e, _ | ⟨e', rest⟩⟩
  · exact fun c hc => absurd hc List.not_mem_nil
  · exact h e (List.mem_singleton_self e)
  · exact forall_mem_columnsOfList.mpr h

end Expr

/-! ## Operators -/

/-- The number of columns of several row types beside each other. -/
def RowType.widthOfList : List RowType → Nat
  | [] => 0
  | t :: ts => t.width + widthOfList ts

namespace Operator

/-- The expressions of an operator. -/
def exprs : Operator → List Expr
  | filter p => [p]
  | project es _ => es
  | join _ condition => [condition]
  | sort order => order.map SortKey.expr
  | _ => []

/-- A projection has an expression for each of its columns. -/
def IsFull : Operator → Prop
  | project es t => es.length = t.width
  | _ => True

/-- An operator that reads no columns but the first ones of its inputs beside each other, and has an
expression for each of its own. -/
structure IsWithin (width : Nat) (op : Operator) : Prop where
  reads : ∀ e ∈ op.exprs, e.IsWithin width
  full : op.IsFull

/-- Filters and joins give as many columns as all their inputs have. -/
theorem width_of_deriveRowType {op : Operator} {inputs : List RowType} {t : RowType}
    (hkind : op.kind ∈ [OperatorKind.filter, .join]) (h : op.deriveRowType inputs = .ok t) :
    t.width = RowType.widthOfList inputs := by
  have hlength := deriveRowType_length h
  cases op with
  | filter p =>
      obtain ⟨u, rfl⟩ := List.length_eq_one_iff.mp hlength
      cases h
      rfl
  | join type c =>
      obtain ⟨u, v, rfl⟩ := List.length_eq_two.mp hlength
      cases h
      exact RowType.width_join ..
  | _ => exact absurd hkind (by simp [kind])

end Operator

end QueryPlanner
