/-
# Estimates do not get negative

Without rounding, what is estimated of an operator's output is non-negative if what is estimated of its
inputs is: its rows, its bytes and the distinct values of its columns. So are the work at an operator and
the price of a conversion, and neither costs less than its inputs do together.

* `Statistics.IsNonnegative` : statistics without negative numbers;
* `Operator.isNonnegative_estimate` : they are derived from such statistics;
* `RowWork.total_le_cost` : an operator costs no less than its inputs do together;
* `Convertlet.price_nonneg` : no conversion has a negative price.
-/
import QueryPlanner.Convertlet
import QueryPlanner.Proofs.Exact

namespace QueryPlanner

open Quantity

variable {log2 : Rat → Rat}

/-! ## Statistics -/

/-- A column of no negative number of distinct values. -/
def ColumnStatistics.IsNonnegative (c : ColumnStatistics (Exact log2)) : Prop := 0 ≤ c.distinct

/-- Columns of no negative numbers of distinct values. -/
def AreNonnegative (columns : Dictionary String (ColumnStatistics (Exact log2))) : Prop :=
  ∀ column ∈ columns, column.2.IsNonnegative

theorem AreNonnegative.mapValues {columns : Dictionary String (ColumnStatistics (Exact log2))}
    (h : AreNonnegative columns) {f : ColumnStatistics (Exact log2) → ColumnStatistics (Exact log2)}
    (hf : ∀ c, c.IsNonnegative → (f c).IsNonnegative) :
    AreNonnegative (Dictionary.mapValues f columns) :=
  Dictionary.forall_mem_mapValues (P := ColumnStatistics.IsNonnegative)
    (Q := ColumnStatistics.IsNonnegative) h hf

/-- Statistics without negative numbers. -/
structure Statistics.IsNonnegative (s : Statistics (Exact log2)) : Prop where
  rows : 0 ≤ s.rows
  bytes : 0 ≤ s.bytes
  columns : AreNonnegative s.columns

namespace Statistics.IsNonnegative

variable {s left right : Statistics (Exact log2)} {n : Exact log2}

theorem unknown : (Statistics.unknown : Statistics (Exact log2)).IsNonnegative :=
  ⟨Exact.ofNat_nonneg 1000, Exact.ofNat_nonneg 100000, fun _ h => absurd h List.not_mem_nil⟩

theorem sized (hn : 0 ≤ n) (width : Nat) : (Statistics.sized n width).IsNonnegative :=
  ⟨hn, mul_nonneg (mul_nonneg hn (Exact.ofNat_nonneg 8)) (Exact.ofNat_nonneg width),
    fun _ h => absurd h List.not_mem_nil⟩

theorem rowBytes (h : s.IsNonnegative) : 0 ≤ s.rowBytes := by
  unfold Statistics.rowBytes
  split
  · exact div_nonneg h.bytes h.rows
  · exact Exact.ofNat_nonneg 100

theorem ofValues (t : RowType) (rows : List Row) :
    (Statistics.ofValues t rows : Statistics (Exact log2)).IsNonnegative := by
  have hrows : (0 : Exact log2) ≤ ofNat rows.length := Exact.ofNat_nonneg rows.length
  have hbase := sized hrows t.width
  unfold Statistics.ofValues
  dsimp only
  split
  · exact hbase
  · refine ⟨hbase.rows, hbase.bytes, ?_⟩
    -- the columns are written one after another, each with a count of its values
    refine List.foldlRecOn (motive := AreNonnegative) _ _ ?_ fun columns h column _ => ?_
    · exact fun _ h => absurd h List.not_mem_nil
    · exact Dictionary.forall_mem_insert (P := ColumnStatistics.IsNonnegative) h
        (Exact.ofNat_nonneg _)

theorem project (h : s.IsNonnegative) (exprs : List Expr) (output : RowType) :
    (s.project exprs output).IsNonnegative := by
  refine ⟨h.rows, mul_nonneg h.rows h.rowBytes, ?_⟩
  unfold Statistics.project
  refine List.foldlRecOn (motive := AreNonnegative) _ _ ?_ fun columns hcolumns named _ => ?_
  · exact fun _ h => absurd h List.not_mem_nil
  · split
    · split
      · next hknown =>
          exact Dictionary.forall_mem_insert (P := ColumnStatistics.IsNonnegative) hcolumns
            (h.columns _ (Dictionary.mem_of_get?_eq_some hknown))
      · exact hcolumns
    · exact hcolumns

theorem join (hl : left.IsNonnegative) (hr : right.IsNonnegative) (equal : List (String × String)) :
    (left.join right equal).IsNonnegative := by
  unfold Statistics.join
  extract_lets share selectivity rows
  have hrows : 0 ≤ rows := Exact.max_nonneg (Exact.ofNat_nonneg 1)
  clear_value rows
  refine ⟨hrows, mul_nonneg hrows (add_nonneg hl.rowBytes hr.rowBytes), ?_⟩
  dsimp only
  refine AreNonnegative.mapValues
    (Dictionary.forall_mem_override (P := ColumnStatistics.IsNonnegative) hl.columns hr.columns)
    fun c hc => ?_
  exact Exact.min_nonneg hc hrows

theorem filter (h : s.IsNonnegative) (n : Exact log2) : (s.filter n).IsNonnegative := by
  unfold Statistics.filter
  extract_lets rows ratio
  have hrows : 0 ≤ rows := Exact.max_nonneg (Exact.ofNat_nonneg 1)
  have hratio : 0 ≤ ratio := by
    dsimp only [ratio]
    split
    · exact div_nonneg hrows h.rows
    · exact Exact.ofNat_nonneg 1
  clear_value ratio rows
  refine ⟨hrows, mul_nonneg h.bytes hratio, ?_⟩
  dsimp only
  refine h.columns.mapValues fun c _ => ?_
  exact Exact.min_nonneg (Exact.max_nonneg (Exact.ofNat_nonneg 1)) hrows

theorem limit (h : s.IsNonnegative) (offset count : Nat) : (s.limit offset count).IsNonnegative := by
  have hcount : (ofNat 0 : Exact log2) ≤ ofNat count := by
    rw [Exact.ofNat_zero]
    exact Exact.ofNat_nonneg count
  unfold Statistics.limit
  extract_lets rows
  have hrows : 0 ≤ rows := by
    rw [← Exact.ofNat_zero]
    exact (Exact.clamp_mem hcount).1
  clear_value rows
  refine ⟨hrows, mul_nonneg hrows h.rowBytes, ?_⟩
  dsimp only
  refine h.columns.mapValues fun c hc => ?_
  exact Exact.min_nonneg hc (Exact.max_nonneg (Exact.ofNat_nonneg 1))

/-- More rows do no harm. -/
theorem withRows (h : s.IsNonnegative) (hn : 0 ≤ n) : ({ s with rows := n }).IsNonnegative :=
  ⟨hn, h.bytes, h.columns⟩

end Statistics.IsNonnegative

/-- What is estimated of an operator's output is non-negative if what is estimated of tables and of its
inputs is. -/
theorem Operator.isNonnegative_estimate {tables : TableName → Option (Statistics (Exact log2))}
    (htables : ∀ table s, tables table = some s → s.IsNonnegative) (op : Operator)
    {inputs : List (Statistics (Exact log2))} (hinputs : ∀ s ∈ inputs, s.IsNonnegative) :
    (op.estimate tables inputs).IsNonnegative := by
  unfold Operator.estimate
  split
  · exact .ofValues _ _
  · next table _ =>
      rcases h : tables table with _ | s
      · exact .unknown
      · exact htables table s h
  · exact (hinputs _ List.mem_cons_self).filter _
  · exact (hinputs _ List.mem_cons_self).project _ _
  · have hl := hinputs _ List.mem_cons_self
    have hjoin := hl.join (hinputs _ (List.mem_cons_of_mem _ List.mem_cons_self))
    dsimp only
    split
    · exact hjoin _
    · exact (hjoin _).withRows (Exact.max_nonneg hl.rows)
  · exact (hinputs _ List.mem_cons_self).limit _ _
  · exact hinputs _ List.mem_cons_self
  · exact hinputs _ List.mem_cons_self
  · exact .unknown

/-! ## Costs -/

/-- Of non-negative costs, none is larger than all together. -/
theorem largest_le_total {costs : List (Exact log2)} (h : ∀ x ∈ costs, 0 ≤ x) :
    largest costs ≤ total costs := by
  have hfold : ∀ (rest : List (Exact log2)) (a b : Exact log2), (∀ x ∈ rest, 0 ≤ x) → 0 ≤ b → a ≤ b →
      rest.foldl Quantity.max a ≤ rest.foldl (· + ·) b := by
    intro rest
    induction rest with
    | nil => exact fun a b _ _ hab => hab
    | cons x rest ih =>
        intro a b hrest hb hab
        obtain ⟨hx, hrest⟩ := List.forall_mem_cons.mp hrest
        refine ih _ _ hrest (add_nonneg hb hx) ?_
        rw [OrderedQuantity.max_eq]
        exact max_le (hab.trans (le_add_of_nonneg_right hx)) (le_add_of_nonneg_left hb)
  cases costs with
  | nil => exact le_of_eq Exact.ofNat_zero
  | cons x rest =>
      obtain ⟨hx, hrest⟩ := List.forall_mem_cons.mp h
      refine hfold rest _ x hrest hx ?_
      rw [OrderedQuantity.max_eq, Exact.ofNat_zero]
      exact max_le hx (le_refl x)

namespace RowWork

theorem factor_standard_nonneg (c : Convention) :
    0 ≤ (standard : RowWork (Exact log2)).factor c := by
  unfold factor
  split_ifs
  · exact pow_nonneg (Nat.cast_nonneg 2) 1024
  · exact Exact.ofNat_nonneg 1
  · exact Exact.ofDecimal_nonneg 5 1
  · exact Exact.ofDecimal_nonneg 6 1
  · exact Exact.ofNat_nonneg 2
  · exact Exact.ofNat_nonneg 1

/-- The rows of an input; a guess where there is none. -/
theorem rows_nonneg {inputs : List (Statistics (Exact log2))} (h : ∀ s ∈ inputs, s.IsNonnegative)
    (i : Nat) : 0 ≤ (inputs[i]?.map Statistics.rows).getD (ofNat 1000) := by
  rcases hi : inputs[i]? with _ | s
  · exact Exact.ofNat_nonneg 1000
  · exact (h s (List.mem_of_getElem? hi)).rows

variable (hlog2 : ∀ x, 1 < x → 0 ≤ log2 x)

include hlog2

/-- No operator does a negative amount of work. -/
theorem work_standard_nonneg (op : Operator) {inputs : List (Statistics (Exact log2))}
    (h : ∀ s ∈ inputs, s.IsNonnegative) : 0 ≤ standard.work op inputs := by
  have hcpu : (0 : Exact log2) ≤ (standard : RowWork (Exact log2)).cpu := Exact.ofNat_nonneg 1
  have hrows := rows_nonneg h 0
  unfold work
  dsimp only
  generalize (inputs[0]?.map Statistics.rows).getD (ofNat 1000) = rows at hrows ⊢
  cases op with
  | values t values => exact mul_nonneg hcpu (Exact.ofNat_nonneg _)
  | scan table t => exact mul_nonneg hcpu hrows
  | filter p => exact mul_nonneg hcpu hrows
  | project exprs t =>
      refine mul_nonneg (mul_nonneg hcpu hrows) (add_nonneg (Exact.ofNat_nonneg 1) ?_)
      exact mul_nonneg (Exact.ofNat_nonneg _) (Exact.ofDecimal_nonneg 1 1)
  | join type c =>
      exact mul_nonneg hcpu (add_nonneg hrows (mul_nonneg hrows (rows_nonneg h 1)))
  | sort keys =>
      refine add_nonneg (mul_nonneg hcpu ?_) (mul_nonneg (Exact.ofDecimal_nonneg 1 2) ?_)
      · split
        · next hlt =>
            rw [OrderedQuantity.lt_eq, decide_eq_true_eq, Exact.ofNat_one] at hlt
            exact mul_nonneg hrows (hlog2 rows hlt)
        · exact Exact.ofNat_nonneg 1
      · rcases hi : inputs[0]? with _ | s
        · exact Exact.ofNat_nonneg 0
        · exact (h s (List.mem_of_getElem? hi)).bytes
  | limit offset count => exact mul_nonneg hcpu (Exact.min_nonneg hrows (Exact.ofNat_nonneg _))
  | converter source => exact Exact.ofNat_nonneg 0

/-- An operator that can be run costs no less than its inputs do together. -/
theorem total_le_cost (op : Operator) {c : Convention} (hc : c ≠ .logical)
    {inputs : List (Statistics (Exact log2))} (h : ∀ s ∈ inputs, s.IsNonnegative)
    (costs : List (Exact log2)) : total costs ≤ standard.model.cost op c inputs costs := by
  unfold model
  dsimp only
  rw [if_neg hc]
  exact le_add_of_nonneg_right
    (mul_nonneg (work_standard_nonneg hlog2 op h) (factor_standard_nonneg c))

end RowWork

/-- No conversion has a negative price. -/
theorem Convertlet.price_nonneg {c : Convertlet (Exact log2)} (hc : c ∈ Convertlet.builtin)
    (t : RowType) {rows : Exact log2} (hrows : 0 ≤ rows) : 0 ≤ c.price t rows := by
  simp only [builtin, List.mem_cons, List.not_mem_nil, or_false] at hc
  rcases hc with rfl | rfl | rfl | rfl | rfl
  · refine mul_nonneg hrows (add_nonneg (Exact.ofNat_nonneg 2) ?_)
    exact mul_nonneg (Exact.ofDecimal_nonneg 1 1) (Exact.ofNat_nonneg _)
  · exact mul_nonneg hrows (Exact.ofDecimal_nonneg 1 1)
  · refine mul_nonneg hrows (add_nonneg (Exact.ofNat_nonneg 1) ?_)
    exact mul_nonneg (Exact.ofDecimal_nonneg 1 2) (Exact.ofNat_nonneg _)
  · exact mul_nonneg hrows (Exact.ofDecimal_nonneg 5 2)
  · exact mul_nonneg hrows (Exact.ofDecimal_nonneg 5 2)

end QueryPlanner
