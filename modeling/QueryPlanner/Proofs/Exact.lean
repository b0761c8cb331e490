/-
# Exact numbers

Estimates without rounding: rational numbers, with whatever function stands for the logarithm. What is
estimated is made of counts and shares. Counts are non-negative, and stay so in sums, products, ratios
and extremes; shares lie between zero and one, and stay so in products and in what they leave out.

* `Exact` : rational numbers with a given logarithm;
* `IsShare` : a number between zero and one;
* `Statistics.isShare_selectivity` : every predicate selects a share of the rows, whatever the statistics
  are.
-/
import Mathlib.Algebra.Order.Field.Basic
import Mathlib.Tactic.NormNum
import Mathlib.Tactic.Positivity
import QueryPlanner.Proofs.Cost
import QueryPlanner.Statistics.Selectivity

namespace QueryPlanner

open Quantity

/-- Rational numbers, with a function that stands for the logarithm to base two. -/
def Exact (_log2 : Rat → Rat) : Type := Rat

variable {log2 : Rat → Rat}

namespace Exact

instance : DivisionRing (Exact log2) := inferInstanceAs (DivisionRing Rat)

instance : LinearOrder (Exact log2) := inferInstanceAs (LinearOrder Rat)

instance : IsStrictOrderedRing (Exact log2) := inferInstanceAs (IsStrictOrderedRing Rat)

/-- They differ from the rational numbers in the logarithm only. -/
instance : Quantity (Exact log2) where
  ofNat n := (n : Exact log2)
  ofInt n := (n : Exact log2)
  ofDecimal n e := (n : Exact log2) / 10 ^ e
  ofFloat x := (Double.ofFloat x).toRat
  neutral := 0
  lt a b := decide (a < b)
  le a b := decide (a ≤ b)
  same a b := decide (a = b)
  undefined _ := false
  precedes a b := decide (a < b)
  log2 := log2
  unaffordable := 2 ^ 1024
  unbounded := 2 ^ 1024

instance : OrderedQuantity (Exact log2) where
  lt_eq _ _ := rfl
  same_eq _ _ := rfl
  undefined_eq _ := rfl
  add_le_add_right h c := by gcongr
  add_le_add_left h c := by gcongr

theorem ofNat_zero : (ofNat 0 : Exact log2) = 0 := Nat.cast_zero

theorem ofNat_one : (ofNat 1 : Exact log2) = 1 := Nat.cast_one

theorem ofNat_nonneg (n : Nat) : (0 : Exact log2) ≤ ofNat n := Nat.cast_nonneg n

theorem ofDecimal_nonneg (n e : Nat) : (0 : Exact log2) ≤ ofDecimal n e :=
  div_nonneg (Nat.cast_nonneg n) (pow_nonneg (Nat.cast_nonneg 10) e)

/-- A decimal of no more than a whole. -/
theorem ofDecimal_le_one {n e : Nat} (h : n ≤ 10 ^ e) : (ofDecimal n e : Exact log2) ≤ 1 := by
  refine div_le_one_of_le₀ ?_ (pow_nonneg (Nat.cast_nonneg 10) e)
  exact_mod_cast h

variable {a b low high : Exact log2}

theorem max_nonneg (hb : 0 ≤ b) : 0 ≤ Quantity.max a b := by
  rw [OrderedQuantity.max_eq]
  exact le_max_of_le_right hb

theorem min_nonneg (ha : 0 ≤ a) (hb : 0 ≤ b) : 0 ≤ Quantity.min a b := by
  rw [OrderedQuantity.min_eq]
  exact le_min ha hb

/-- What is moved into a range is in it. -/
theorem clamp_mem (h : low ≤ high) : low ≤ clamp a low high ∧ clamp a low high ≤ high := by
  have hlow : low ≤ if Quantity.lt a low then low else a := by
    split
    · exact le_refl low
    · next hlt => exact le_of_not_gt fun hbelow => hlt (decide_eq_true hbelow)
  unfold clamp
  dsimp only
  generalize (if Quantity.lt a low then low else a) = b at hlow ⊢
  split
  · exact ⟨h, le_refl high⟩
  · next hlt => exact ⟨hlow, le_of_not_gt fun habove => hlt (decide_eq_true habove)⟩

end Exact

/-! ## Shares -/

/-- A number between zero and one. -/
structure IsShare (x : Exact log2) : Prop where
  nonneg : 0 ≤ x
  le_one : x ≤ 1

namespace IsShare

variable {x y : Exact log2}

theorem one : IsShare (1 : Exact log2) := ⟨zero_le_one, le_refl 1⟩

theorem mul (hx : IsShare x) (hy : IsShare y) : IsShare (x * y) :=
  ⟨mul_nonneg hx.nonneg hy.nonneg, mul_le_one₀ hx.le_one hy.nonneg hy.le_one⟩

/-- What a share leaves out is one. -/
theorem compl (hx : IsShare x) : IsShare (ofNat 1 - x) := by
  rw [Exact.ofNat_one]
  exact ⟨sub_nonneg.mpr hx.le_one, sub_le_self 1 hx.nonneg⟩

/-- One of at least one. -/
theorem one_div (hx : 1 ≤ x) : IsShare (ofNat 1 / x) := by
  rw [Exact.ofNat_one]
  exact ⟨div_nonneg zero_le_one (zero_le_one.trans hx), div_le_one_of_le₀ hx (zero_le_one.trans hx)⟩

theorem clamp (x : Exact log2) : IsShare (clamp x (ofNat 0) (ofNat 1)) := by
  have hle : (ofNat 0 : Exact log2) ≤ ofNat 1 := by
    rw [Exact.ofNat_zero, Exact.ofNat_one]
    exact zero_le_one
  obtain ⟨hlow, hhigh⟩ := Exact.clamp_mem (a := x) hle
  rw [Exact.ofNat_zero, Exact.ofNat_one] at *
  exact ⟨hlow, hhigh⟩

theorem product {xs : List (Exact log2)} (h : ∀ x ∈ xs, IsShare x) : IsShare (product xs) := by
  have hfold : ∀ y : Exact log2, IsShare y → IsShare (xs.foldl (· * ·) y) := by
    induction xs with
    | nil => exact fun y hy => hy
    | cons x xs ih =>
        obtain ⟨hx, hxs⟩ := List.forall_mem_cons.mp h
        exact fun y hy => ih hxs _ (hy.mul hx)
  refine hfold _ ?_
  rw [Exact.ofNat_one]
  exact one

end IsShare

/-! ## Selectivity -/

namespace Statistics

variable (s : Statistics (Exact log2))

theorem isShare_defaultSelectivity : IsShare (defaultSelectivity : Exact log2) :=
  ⟨Exact.ofDecimal_nonneg 1 1, Exact.ofDecimal_le_one (by decide)⟩

theorem isShare_rangeDefault : IsShare (rangeDefault : Exact log2) :=
  ⟨Exact.ofDecimal_nonneg 33 2, Exact.ofDecimal_le_one (by decide)⟩

theorem isShare_equalitySelectivity (column : String) : IsShare (s.equalitySelectivity column) := by
  unfold equalitySelectivity
  split
  · refine IsShare.one_div ?_
    rw [OrderedQuantity.max_eq, Exact.ofNat_one]
    exact le_max_right _ 1
  · exact isShare_defaultSelectivity

theorem isShare_rangeSelectivity (column : String) (op : BinaryOp) (value : Scalar) :
    IsShare (s.rangeSelectivity column op value) := by
  unfold rangeSelectivity
  split
  · split
    · exact isShare_rangeDefault
    · -- the interpolated share is below the value, what is left is above it
      dsimp only
      split
      · exact IsShare.clamp _
      · exact IsShare.clamp _
      · exact (IsShare.clamp _).compl
      · exact (IsShare.clamp _).compl
      · exact isShare_rangeDefault
  · exact isShare_rangeDefault

theorem isShare_equality (l r : Expr) : IsShare (s.equality l r) := by
  unfold equality
  split
  · exact s.isShare_equalitySelectivity _
  · exact s.isShare_equalitySelectivity _
  · exact isShare_defaultSelectivity

theorem isShare_comparison (op : BinaryOp) (l r : Expr) : IsShare (s.comparison op l r) := by
  unfold comparison
  split
  · exact s.isShare_rangeSelectivity _ _ _
  · exact s.isShare_rangeSelectivity _ _ _
  · exact isShare_rangeDefault

mutual

/-- Every predicate selects a share of the rows, whatever the statistics are. -/
theorem isShare_selectivity : ∀ e : Expr, IsShare (s.selectivity e)
  | .binary op l r => by
      unfold selectivity
      cases op with
      | eq => exact s.isShare_equality l r
      | lt => exact s.isShare_comparison .lt l r
      | ltEq => exact s.isShare_comparison .ltEq l r
      | gt => exact s.isShare_comparison .gt l r
      | gtEq => exact s.isShare_comparison .gtEq l r
      | _ => exact isShare_defaultSelectivity
  | .literal (.bool true) => by
      unfold selectivity
      rw [Exact.ofNat_one]
      exact IsShare.one
  | .literal (.bool false) | .literal .null | .literal (.int _) | .literal (.float _)
  | .literal (.text _) | .literal (.date _) => by
      unfold selectivity
      exact isShare_defaultSelectivity
  | .and es => by
      unfold selectivity
      exact IsShare.product (isShare_selectivities es)
  | .or es => by
      unfold selectivity
      refine (IsShare.product fun x hx => ?_).compl
      obtain ⟨y, hy, rfl⟩ := List.mem_map.mp hx
      exact (isShare_selectivities es y hy).compl
  | .column _ => by
      unfold selectivity
      exact isShare_defaultSelectivity
  | .unary _ _ => by
      unfold selectivity
      exact isShare_defaultSelectivity
  | .call _ _ => by
      unfold selectivity
      exact isShare_defaultSelectivity

theorem isShare_selectivities : ∀ es : List Expr, ∀ x ∈ s.selectivities es, IsShare x
  | [] => fun _ hx => absurd hx List.not_mem_nil
  | e :: es => List.forall_mem_cons.mpr ⟨isShare_selectivity e, isShare_selectivities es⟩

end

end Statistics

end QueryPlanner
