/-
# Vocabularies

Rewriting takes expressions apart and puts them together again, but it makes up no names and no
literals, and columns stay within the width of a row. Of the expressions over such a vocabulary
there are only finitely many of any size.

* `Vocabulary` : what expressions are made of;
* `isOver_substitute`, `isOver_conjunction` : what rewriting keeps to a vocabulary;
* `finite_setOf_isOver` : expressions over a vocabulary are finitely many of any size.
-/
import Mathlib.Data.Finite.Prod
import Mathlib.Data.Set.Finite.List
import Mathlib.Order.Interval.Set.Basic
import QueryPlanner.Proofs.Weight

namespace QueryPlanner

/-- What expressions are made of: names of columns, literals, names of functions, and the number of
columns that a row has at most. -/
structure Vocabulary where
  columns : Set (Option String × String)
  literals : Set Scalar
  calls : Set String
  width : Nat
  finite_columns : columns.Finite
  finite_literals : literals.Finite
  finite_calls : calls.Finite

/-- What a vocabulary says of one part of an expression. -/
def Vocabulary.Admits (voc : Vocabulary) : Expr → Prop
  | .column c => (c.table, c.name) ∈ voc.columns ∧ c.index < voc.width
  | .literal v => v ∈ voc.literals
  | .call name _ => name ∈ voc.calls
  | _ => True

/-- There are finitely many lists of some length at most over a finite set. -/
theorem finite_setOf_length_le {α : Type} {s : Set α} (hs : s.Finite) (n : Nat) :
    {as : List α | as.length ≤ n ∧ ∀ a ∈ as, a ∈ s}.Finite := by
  induction n with
  | zero =>
      refine (Set.finite_singleton []).subset ?_
      rintro as ⟨hlength, -⟩
      exact List.length_eq_zero_iff.mp (Nat.le_zero.mp hlength)
  | succ n ih =>
      refine ((hs.image2 List.cons ih).insert []).subset ?_
      rintro (_ | ⟨a, as⟩) ⟨hlength, hmem⟩
      · exact Set.mem_insert _ _
      · obtain ⟨ha, has⟩ := List.forall_mem_cons.mp hmem
        exact Set.mem_insert_of_mem _ ⟨a, ha, as, ⟨Nat.le_of_succ_le_succ hlength, has⟩, rfl⟩

theorem BinaryOp.mem_all (op : BinaryOp) : op ∈ all := by
  cases op <;> decide

theorem UnaryOp.mem_all (op : UnaryOp) : op ∈ all := by
  cases op <;> decide

namespace Expr

variable {voc : Vocabulary} {e : Expr} {es : List Expr} {σ : Column → Expr}

/-- An expression is over a vocabulary if all its parts are. -/
def IsOver (voc : Vocabulary) (e : Expr) : Prop := ∀ part ∈ e.parts, voc.Admits part

theorem isOver_column {c : Column} :
    (column c).IsOver voc ↔ (c.table, c.name) ∈ voc.columns ∧ c.index < voc.width :=
  List.forall_mem_singleton

theorem isOver_literal {v : Scalar} : (literal v).IsOver voc ↔ v ∈ voc.literals :=
  List.forall_mem_singleton

theorem isOver_binary {op : BinaryOp} {l r : Expr} :
    (binary op l r).IsOver voc ↔ l.IsOver voc ∧ r.IsOver voc :=
  forall_mem_parts_binary.trans (and_iff_right trivial)

theorem isOver_unary {op : UnaryOp} : (unary op e).IsOver voc ↔ e.IsOver voc :=
  forall_mem_parts_unary.trans (and_iff_right trivial)

theorem isOver_call {name : String} :
    (call name es).IsOver voc ↔ name ∈ voc.calls ∧ ∀ e ∈ es, e.IsOver voc :=
  forall_mem_parts_call

theorem isOver_and : (and es).IsOver voc ↔ ∀ e ∈ es, e.IsOver voc :=
  forall_mem_parts_and.trans (and_iff_right trivial)

theorem isOver_or : (or es).IsOver voc ↔ ∀ e ∈ es, e.IsOver voc :=
  forall_mem_parts_or.trans (and_iff_right trivial)

/-! ## Rewriting -/

mutual

/-- A substitution keeps to a vocabulary if what is put in the place of columns does. -/
theorem isOver_substitute : ∀ e : Expr, e.IsOver voc → (∀ c ∈ e.columns, (σ c).IsOver voc) →
    (e.substitute σ).IsOver voc
  | column c, _, h => h c (List.mem_singleton_self c)
  | literal _, he, _ => he
  | binary _ l r, he, h => by
      obtain ⟨hl, hr⟩ := isOver_binary.mp he
      refine isOver_binary.mpr ⟨isOver_substitute l hl fun c hc => ?_,
        isOver_substitute r hr fun c hc => ?_⟩
      · exact h c (List.mem_append_left _ hc)
      · exact h c (List.mem_append_right _ hc)
  | unary _ e, he, h => isOver_unary.mpr (isOver_substitute e (isOver_unary.mp he) h)
  | call _ args, he, h => by
      obtain ⟨hname, hargs⟩ := isOver_call.mp he
      exact isOver_call.mpr ⟨hname, isOver_substituteList args hargs h⟩
  | and es, he, h => isOver_and.mpr (isOver_substituteList es (isOver_and.mp he) h)
  | or es, he, h => isOver_or.mpr (isOver_substituteList es (isOver_or.mp he) h)

theorem isOver_substituteList : ∀ es : List Expr, (∀ e ∈ es, e.IsOver voc) →
    (∀ c ∈ columnsOfList es, (σ c).IsOver voc) → ∀ e ∈ substituteList σ es, e.IsOver voc
  | [], _, _ => fun e he => absurd he List.not_mem_nil
  | e :: es, hes, h => by
      obtain ⟨he, hrest⟩ := List.forall_mem_cons.mp hes
      rw [substituteList]
      refine List.forall_mem_cons.mpr ⟨?_, ?_⟩
      · exact isOver_substitute e he fun c hc => h c (List.mem_append_left _ hc)
      · exact isOver_substituteList es hrest fun c hc => h c (List.mem_append_right _ hc)

end

/-- What is inlined keeps to a vocabulary. -/
theorem isOver_inlineList {inner merged : List Expr} (h : inlineList inner es = some merged)
    (hes : ∀ e ∈ es, e.IsOver voc) (hinner : ∀ e ∈ inner, e.IsOver voc) :
    ∀ e ∈ merged, e.IsOver voc := by
  obtain ⟨rfl, hrange⟩ := inlineList_eq_substituteList inner h
  refine isOver_substituteList es hes fun c hc => ?_
  unfold inlined
  rw [List.getElem?_eq_getElem (hrange c hc)]
  exact hinner _ (List.getElem_mem _)

/-- Columns may be moved within the width of a row. -/
theorem isOver_mapColumns {f : Nat → Nat} (hf : ∀ i < voc.width, f i < voc.width)
    (he : e.IsOver voc) : (e.mapColumns f).IsOver voc := by
  rw [mapColumns_eq_substitute]
  refine isOver_substitute e he fun c hc => ?_
  obtain ⟨hname, hlt⟩ := isOver_column.mp fun part hpart =>
    he part (List.mem_singleton.mp hpart ▸ column_mem_parts e hc)
  exact isOver_column.mpr ⟨hname, hf c.index hlt⟩

mutual

/-- Conjuncts are made of parts of the predicate. -/
theorem isOver_of_mem_conjuncts {x : Expr} : ∀ {e : Expr}, e.IsOver voc → x ∈ e.conjuncts →
    x.IsOver voc
  | and _, he, hx => isOver_of_mem_conjunctsOfList (isOver_and.mp he) hx
  | column _, he, hx | literal _, he, hx | binary .., he, hx | unary .., he, hx | call .., he, hx
  | or _, he, hx => List.mem_singleton.mp hx ▸ he

theorem isOver_of_mem_conjunctsOfList {x : Expr} : ∀ {es : List Expr}, (∀ e ∈ es, e.IsOver voc) →
    x ∈ conjunctsOfList es → x.IsOver voc
  | [], _, hx => absurd hx List.not_mem_nil
  | e :: es, hes, hx => by
      obtain ⟨he, hrest⟩ := List.forall_mem_cons.mp hes
      exact (List.mem_append.mp hx).elim (isOver_of_mem_conjuncts he)
        (isOver_of_mem_conjunctsOfList hrest)

end

/-- A conjunction keeps to the vocabulary of what it is of. -/
theorem isOver_conjunction (hne : es ≠ []) (h : ∀ e ∈ es, e.IsOver voc) :
    (conjunction es).IsOver voc := by
  rcases es with _ | ⟨e, _ | ⟨e', rest⟩⟩
  · exact absurd rfl hne
  · exact h e (List.mem_singleton_self e)
  · exact isOver_and.mpr h

/-! ## Finiteness -/

/-- A list of expressions is no longer than its weight. -/
theorem length_le_weightOfList (es : List Expr) : es.length ≤ weightOfList (fun _ => 1) es := by
  induction es with
  | nil => exact Nat.le_refl 0
  | cons e es ih =>
      have hpos := weight_pos (fun _ => Nat.one_pos) e
      rw [weightOfList, List.length_cons]
      omega

/-- Every expression of a list is no heavier than the list. -/
theorem weight_le_weightOfList {w : Column → Nat} (he : e ∈ es) :
    e.weight w ≤ weightOfList w es := by
  induction es with
  | nil => exact absurd he List.not_mem_nil
  | cons x rest ih =>
      rw [weightOfList]
      rcases List.mem_cons.mp he with rfl | he
      · exact Nat.le_add_right _ _
      · exact Nat.le_add_left_of_le (ih he)

/-- Expressions over a vocabulary are finitely many of any size. -/
theorem finite_setOf_isOver (voc : Vocabulary) (n : Nat) :
    {e : Expr | e.IsOver voc ∧ e.size ≤ n}.Finite := by
  induction n with
  | zero =>
      refine Set.finite_empty.subset ?_
      rintro e ⟨-, hsize⟩
      exact absurd hsize (Nat.not_le_of_lt (weight_pos (fun _ => Nat.one_pos) e))
  | succ n ih =>
      have hlists := finite_setOf_length_le ih n
      have hcolumns := (voc.finite_columns.prod (Set.finite_lt_nat voc.width)).image
        fun x => column ⟨x.1.1, x.1.2, x.2⟩
      have hliterals := voc.finite_literals.image literal
      have hbinaries := (List.finite_toSet BinaryOp.all).image2 (fun op (x : Expr × Expr) =>
        binary op x.1 x.2) (ih.prod ih)
      have hunaries := (List.finite_toSet UnaryOp.all).image2 unary ih
      have hcalls := voc.finite_calls.image2 call hlists
      refine (hcolumns.union (hliterals.union (hbinaries.union (hunaries.union (hcalls.union
        ((hlists.image and).union (hlists.image or))))))).subset ?_
      -- what an expression is made of is smaller than the expression
      have hargs : ∀ {es : List Expr}, (∀ e ∈ es, e.IsOver voc) →
          weightOfList (fun _ => 1) es + 1 ≤ n + 1 →
          es ∈ {es | es.length ≤ n ∧ ∀ e ∈ es, e ∈ {e : Expr | e.IsOver voc ∧ e.size ≤ n}} := by
        intro es hes hsize
        have hweight := Nat.le_of_succ_le_succ hsize
        exact ⟨Nat.le_trans (length_le_weightOfList es) hweight, fun e he =>
          ⟨hes e he, Nat.le_trans (weight_le_weightOfList he) hweight⟩⟩
      rintro e ⟨hover, hsize⟩
      cases e with
      | column c =>
          obtain ⟨hname, hlt⟩ := isOver_column.mp hover
          exact .inl ⟨((c.table, c.name), c.index), ⟨hname, hlt⟩, rfl⟩
      | literal v => exact .inr (.inl ⟨v, isOver_literal.mp hover, rfl⟩)
      | binary op l r =>
          obtain ⟨hl, hr⟩ := isOver_binary.mp hover
          have hweight : l.size + r.size + 1 ≤ n + 1 := hsize
          have hsizes : l.size ≤ n ∧ r.size ≤ n := by omega
          exact .inr (.inr (.inl ⟨op, op.mem_all, (l, r), ⟨⟨hl, hsizes.1⟩, ⟨hr, hsizes.2⟩⟩, rfl⟩))
      | unary op e =>
          have hweight := Nat.le_of_succ_le_succ hsize
          exact .inr (.inr (.inr (.inl ⟨op, op.mem_all, e, ⟨isOver_unary.mp hover, hweight⟩, rfl⟩)))
      | call name args =>
          obtain ⟨hname, hover'⟩ := isOver_call.mp hover
          exact .inr (.inr (.inr (.inr (.inl ⟨name, hname, args, hargs hover' hsize, rfl⟩))))
      | and es =>
          exact .inr (.inr (.inr (.inr (.inr (.inl ⟨es, hargs (isOver_and.mp hover) hsize, rfl⟩)))))
      | or es =>
          exact .inr (.inr (.inr (.inr (.inr (.inr ⟨es, hargs (isOver_or.mp hover) hsize, rfl⟩)))))

end Expr

end QueryPlanner
