/-
# Typed expressions

An expression is typed over a row type if it evaluates on every row of that type, all its
parts do, and its value is one of its type or missing. Nothing that evaluating such an
expression leaves out can fail, so that code for it gives its value.

* `RowType.Admits` : the rows of a row type;
* `Evaluates` : an expression and all its parts have values on a row;
* `HasType` : they have on all rows of a row type, and the expression is of a type there;
* `Evaluates.evalWhole` : nothing that is left out fails.
-/
import Mathlib.Data.List.Forall2
import QueryPlanner.Proofs.Lowering
import QueryPlanner.RowType

namespace QueryPlanner

/-! ## Rows of a row type -/

/-- Whether a scalar is of a type, or missing. -/
def DataType.admits : DataType → Scalar → Bool
  | _, .null => true
  | boolean, .bool _ => true
  | int64, .int _ => true
  | float64, .float _ => true
  | utf8, .text _ => true
  | date, .date _ => true
  | _, _ => false

theorem DataType.admits_null (type : DataType) : type.admits .null = true := by
  cases type <;> rfl

/-- A truth value or nothing is all that is of boolean type. -/
theorem DataType.boolean_admits_iff {v : Scalar} :
    boolean.admits v = true ↔ v = .null ∨ ∃ b, v = .bool b := by
  cases v <;> simp [admits]

namespace RowType

/-- The rows of a row type: as wide as it is, each value of the type of its column or missing. -/
def Admits (t : RowType) (row : Row) : Prop :=
  List.Forall₂ (fun f v => f.type.admits v = true) t.fields row

variable {t left right : RowType} {row : Row}

theorem Admits.length_eq (h : t.Admits row) : row.length = t.width :=
  (List.Forall₂.length_eq h).symm

/-- The row of missing values is of every row type. -/
theorem admits_replicate_null (t : RowType) : t.Admits (List.replicate t.width .null) := by
  obtain ⟨fields⟩ := t
  unfold Admits width
  induction fields with
  | nil => exact List.Forall₂.nil
  | cons f rest ih => exact List.Forall₂.cons (DataType.admits_null f.type) ih

/-- Whether columns may be missing does not matter for what is admitted. -/
theorem admits_optional (optional : Bool) :
    List.Forall₂ (fun (f : Field) v => f.type.admits v = true)
        (right.fields.map fun f => { f with nullable := f.nullable || optional }) row ↔
      right.Admits row := by
  rw [List.forall₂_map_left_iff]
  rfl

/-- Two rows beside each other are of the joined row type. -/
theorem Admits.append {l r : Row} (hl : left.Admits l) (hr : right.Admits r) (optional : Bool) :
    (left.join right optional).Admits (l ++ r) :=
  List.rel_append hl ((admits_optional optional).mpr hr)

/-- A row of a joined row type consists of two rows. -/
theorem Admits.of_join {optional : Bool} (h : (left.join right optional).Admits row) :
    ∃ l r, row = l ++ r ∧ left.Admits l ∧ right.Admits r := by
  unfold Admits join at h
  dsimp only at h
  have hlen : left.fields.length ≤ row.length := by
    rw [← List.Forall₂.length_eq h, List.length_append]
    exact Nat.le_add_right _ _
  have hl := List.forall₂_take left.fields.length h
  have hr := List.forall₂_drop left.fields.length h
  rw [List.take_left] at hl
  rw [List.drop_left] at hr
  refine ⟨_, _, (List.take_append_drop left.fields.length row).symm, hl, ?_⟩
  exact (admits_optional optional).mp hr

end RowType

namespace Expr

variable {row : Row} {e : Expr}

/-! ## Parts -/

mutual

/-- An expression and all expressions that it is made of. -/
def parts : Expr → List Expr
  | column c => [column c]
  | literal v => [literal v]
  | binary op l r => binary op l r :: (l.parts ++ r.parts)
  | unary op e => unary op e :: e.parts
  | call name args => call name args :: partsOfList args
  | and es => and es :: partsOfList es
  | or es => or es :: partsOfList es

/-- The parts of several expressions. -/
def partsOfList : List Expr → List Expr
  | [] => []
  | e :: es => e.parts ++ partsOfList es

end

/-- The parts of a list are those of its expressions. -/
theorem partsOfList_eq (es : List Expr) : partsOfList es = es.flatMap parts := by
  induction es with
  | nil => rfl
  | cons e es ih => simp [partsOfList, ih]

theorem mem_parts_self (e : Expr) : e ∈ e.parts := by
  cases e <;> exact List.mem_cons_self

theorem mem_partsOfList {part : Expr} {es : List Expr} :
    part ∈ partsOfList es ↔ ∃ e ∈ es, part ∈ e.parts := by
  rw [partsOfList_eq, List.mem_flatMap]

section Parts

variable {P : Expr → Prop} {es : List Expr}

/-- All parts of several expressions are those of each. -/
theorem forall_mem_partsOfList :
    (∀ part ∈ partsOfList es, P part) ↔ ∀ e ∈ es, ∀ part ∈ e.parts, P part := by
  constructor
  · intro h e he part hpart
    exact h part (mem_partsOfList.mpr ⟨e, he, hpart⟩)
  · intro h part hpart
    obtain ⟨e, he, hpart⟩ := mem_partsOfList.mp hpart
    exact h e he part hpart

/-- Those of one expression are the expression and those of its operands. -/
theorem forall_mem_parts_binary {op : BinaryOp} {l r : Expr} :
    (∀ part ∈ (binary op l r).parts, P part) ↔
      P (binary op l r) ∧ (∀ part ∈ l.parts, P part) ∧ ∀ part ∈ r.parts, P part := by
  show (∀ part ∈ binary op l r :: (l.parts ++ r.parts), P part) ↔ _
  rw [List.forall_mem_cons, List.forall_mem_append]

theorem forall_mem_parts_unary {op : UnaryOp} {e : Expr} :
    (∀ part ∈ (unary op e).parts, P part) ↔ P (unary op e) ∧ ∀ part ∈ e.parts, P part := by
  show (∀ part ∈ unary op e :: e.parts, P part) ↔ _
  rw [List.forall_mem_cons]

theorem forall_mem_parts_call {name : String} : (∀ part ∈ (call name es).parts, P part) ↔
    P (call name es) ∧ ∀ e ∈ es, ∀ part ∈ e.parts, P part := by
  show (∀ part ∈ call name es :: partsOfList es, P part) ↔ _
  rw [List.forall_mem_cons, forall_mem_partsOfList]

theorem forall_mem_parts_and : (∀ part ∈ (and es).parts, P part) ↔
    P (and es) ∧ ∀ e ∈ es, ∀ part ∈ e.parts, P part := by
  show (∀ part ∈ and es :: partsOfList es, P part) ↔ _
  rw [List.forall_mem_cons, forall_mem_partsOfList]

theorem forall_mem_parts_or : (∀ part ∈ (or es).parts, P part) ↔
    P (or es) ∧ ∀ e ∈ es, ∀ part ∈ e.parts, P part := by
  show (∀ part ∈ or es :: partsOfList es, P part) ↔ _
  rw [List.forall_mem_cons, forall_mem_partsOfList]

end Parts

mutual

/-- The columns that an expression reads are parts of it. -/
theorem column_mem_parts : ∀ (e : Expr) {c : Column}, c ∈ e.columns → column c ∈ e.parts
  | column _, c, h => by
      rw [columns, List.mem_singleton] at h
      subst h
      exact List.mem_cons_self
  | literal _, c, h => absurd h List.not_mem_nil
  | binary op l r, c, h => by
      refine List.mem_cons_of_mem _ ?_
      rcases List.mem_append.mp h with h | h
      · exact List.mem_append_left _ (column_mem_parts l h)
      · exact List.mem_append_right _ (column_mem_parts r h)
  | unary _ e, c, h => List.mem_cons_of_mem _ (column_mem_parts e h)
  | call _ args, c, h => List.mem_cons_of_mem _ (column_mem_partsOfList args h)
  | and es, c, h => List.mem_cons_of_mem _ (column_mem_partsOfList es h)
  | or es, c, h => List.mem_cons_of_mem _ (column_mem_partsOfList es h)

/-- The columns that several expressions read are parts of them. -/
theorem column_mem_partsOfList :
    ∀ (es : List Expr) {c : Column}, c ∈ columnsOfList es → column c ∈ partsOfList es
  | [], c, h => absurd h List.not_mem_nil
  | e :: es, c, h => by
      rcases List.mem_append.mp h with h | h
      · exact List.mem_append_left _ (column_mem_parts e h)
      · exact List.mem_append_right _ (column_mem_partsOfList es h)

end

/-! ## Expressions that evaluate -/

/-- An expression and all its parts have values on a row. -/
def Evaluates (row : Row) (e : Expr) : Prop := ∀ part ∈ e.parts, ∃ v, part.eval row = .ok v

/-- The value of an expression on a row; the missing one where it has none. -/
def value (row : Row) (e : Expr) : Scalar := (e.eval row).toOption.getD .null

theorem value_of_eval {v : Scalar} (h : e.eval row = .ok v) : e.value row = v := by
  unfold value
  rw [h]
  rfl

/-- A column has the value at its place. -/
theorem value_column {c : Column} {v : Scalar} (h : row[c.index]? = some v) :
    (column c).value row = v := by
  refine value_of_eval ?_
  rw [eval, h]

theorem Evaluates.eval (h : e.Evaluates row) : e.eval row = .ok (e.value row) := by
  obtain ⟨v, hv⟩ := h e (mem_parts_self e)
  rw [value_of_eval hv, hv]

theorem evaluates_binary {op : BinaryOp} {l r : Expr} :
    (binary op l r).Evaluates row ↔
      (∃ v, (binary op l r).eval row = .ok v) ∧ l.Evaluates row ∧ r.Evaluates row :=
  forall_mem_parts_binary

theorem evaluates_unary {op : UnaryOp} :
    (unary op e).Evaluates row ↔ (∃ v, (unary op e).eval row = .ok v) ∧ e.Evaluates row :=
  forall_mem_parts_unary

theorem evaluates_call {name : String} {args : List Expr} :
    (call name args).Evaluates row ↔
      (∃ v, (call name args).eval row = .ok v) ∧ ∀ e ∈ args, e.Evaluates row :=
  forall_mem_parts_call

theorem evaluates_and {es : List Expr} :
    (and es).Evaluates row ↔ (∃ v, (and es).eval row = .ok v) ∧ ∀ e ∈ es, e.Evaluates row :=
  forall_mem_parts_and

theorem evaluates_or {es : List Expr} :
    (or es).Evaluates row ↔ (∃ v, (or es).eval row = .ok v) ∧ ∀ e ∈ es, e.Evaluates row :=
  forall_mem_parts_or

theorem evaluates_column {c : Column} : (column c).Evaluates row ↔ c.index < row.length := by
  unfold Evaluates
  show (∀ part ∈ [column c], _) ↔ _
  rw [List.forall_mem_singleton, Expr.eval]
  by_cases hc : c.index < row.length
  · rw [List.getElem?_eq_getElem hc]
    exact ⟨fun _ => hc, fun _ => ⟨_, rfl⟩⟩
  · rw [List.getElem?_eq_none (Nat.le_of_not_lt hc)]
    refine ⟨?_, fun h => absurd h hc⟩
    rintro ⟨v, hv⟩
    cases hv

theorem evaluates_literal (v : Scalar) : (literal v).Evaluates row := by
  intro part hpart
  obtain rfl := List.mem_singleton.mp hpart
  exact ⟨v, rfl⟩

/-- What evaluates reads no column outside of the row. -/
theorem Evaluates.index_lt (h : e.Evaluates row) : ∀ c ∈ e.columns, c.index < row.length := by
  intro c hc
  have hcolumn : (column c).Evaluates row := by
    intro part hpart
    obtain rfl := List.mem_singleton.mp hpart
    exact h _ (column_mem_parts e hc)
  exact evaluates_column.mp hcolumn

mutual

/-- Nothing that evaluating an expression leaves out fails, where all its parts have values. -/
theorem omittedFailure_eq_none : ∀ e : Expr, e.Evaluates row → e.omittedFailure row = none
  | column _, _ => rfl
  | literal _, _ => rfl
  | binary op l r, h => by
      obtain ⟨-, hl, hr⟩ := evaluates_binary.mp h
      rw [omittedFailure, omittedFailure_eq_none l hl, hl.eval]
      exact omittedFailure_eq_none r hr
  | unary _ e, h => omittedFailure_eq_none e (evaluates_unary.mp h).2
  | call _ args, h => omittedIn_eq_none _ args (evaluates_call.mp h).2
  | and es, h => omittedIn_eq_none _ es (evaluates_and.mp h).2
  | or es, h => omittedIn_eq_none _ es (evaluates_or.mp h).2

/-- `omittedFailure_eq_none` for operands of which some are left out. -/
theorem omittedIn_eq_none (settles : Scalar → Bool) :
    ∀ es : List Expr, (∀ e ∈ es, e.Evaluates row) → omittedIn row settles es = none
  | [], _ => rfl
  | e :: es, h => by
      obtain ⟨he, hes⟩ := List.forall_mem_cons.mp h
      rw [omittedIn, omittedFailure_eq_none e he, he.eval]
      dsimp only
      split
      · exact firstFailure_eq_none es hes
      · exact omittedIn_eq_none settles es hes

/-- `omittedFailure_eq_none` for operands that all are left out. -/
theorem firstFailure_eq_none :
    ∀ es : List Expr, (∀ e ∈ es, e.Evaluates row) → firstFailure row es = none
  | [], _ => rfl
  | e :: es, h => by
      obtain ⟨he, hes⟩ := List.forall_mem_cons.mp h
      rw [firstFailure, omittedFailure_eq_none e he, he.eval]
      exact firstFailure_eq_none es hes

end

/-- As a whole, an expression evaluates to its value. -/
theorem Evaluates.evalWhole (h : e.Evaluates row) : e.evalWhole row = .ok (e.value row) := by
  unfold Expr.evalWhole
  rw [omittedFailure_eq_none e h]
  exact h.eval

/-! ## Types -/

/-- On all rows of a row type, an expression and all its parts have values, and that of the
expression is of a type or missing. -/
def HasType (t : RowType) (e : Expr) (type : DataType) : Prop :=
  ∀ row, t.Admits row → e.Evaluates row ∧ type.admits (e.value row) = true

variable {t : RowType} {type : DataType}

theorem HasType.evaluates (h : e.HasType t type) (hrow : t.Admits row) : e.Evaluates row :=
  (h row hrow).1

theorem HasType.admits (h : e.HasType t type) (hrow : t.Admits row) :
    type.admits (e.value row) = true :=
  (h row hrow).2

/-- A typed expression reads columns of its row type only. -/
theorem HasType.index_lt (h : e.HasType t type) : ∀ c ∈ e.columns, c.index < t.width := by
  intro c hc
  -- every row type admits a row, that of missing values
  have hnull := t.admits_replicate_null
  have hlt := (h.evaluates hnull).index_lt c hc
  rwa [hnull.length_eq] at hlt

/-- The values of typed expressions are of their types. -/
theorem admits_map_value {exprs : List Expr} {out : RowType}
    (h : List.Forall₂ (fun e f => e.HasType t f.type) exprs out.fields) (hrow : t.Admits row) :
    out.Admits (exprs.map (value row)) := by
  unfold RowType.Admits
  rw [List.forall₂_map_right_iff]
  exact h.flip.imp fun f e he => HasType.admits he hrow

/-- Typed expressions evaluate to their values. -/
theorem mapM_eval {exprs : List Expr} (h : ∀ e ∈ exprs, e.Evaluates row) :
    exprs.mapM (eval row) = .ok (exprs.map (value row)) :=
  mapM_eq_ok_map fun e he => (h e he).eval

end Expr

end QueryPlanner
