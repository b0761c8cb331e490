/-
# Costs in a linear order

What is assumed of costs when it is shown that winners are optimal: they are compared as
the elements of a linear order, they are added monotonically, and a cost model never makes
an operator cheaper over dearer inputs. Floats are no such numbers, since they are rounded
and need not be comparable; rational numbers are.

* `OrderedQuantity` : quantities that are compared and added as in a linear order;
* `CostModel.IsMonotone` : a cost model that is monotone in the costs of the inputs;
* `RowWork.isMonotone_model` : the row-work model is one, with any weights.
-/
import Mathlib.Algebra.Order.Ring.Rat
import Mathlib.Data.List.Forall2
import QueryPlanner.Cost

namespace QueryPlanner

open Quantity

/-- Quantities that are compared and added as in a linear order. -/
class OrderedQuantity (ν : Type) [Quantity ν] [LinearOrder ν] : Prop where
  lt_eq (a b : ν) : Quantity.lt a b = decide (a < b)
  same_eq (a b : ν) : same a b = decide (a = b)
  undefined_eq (a : ν) : undefined a = false
  add_le_add_right {a b : ν} (h : a ≤ b) (c : ν) : a + c ≤ b + c
  add_le_add_left {a b : ν} (h : a ≤ b) (c : ν) : c + a ≤ c + b

/-- A cost model by which an operator is never cheaper over dearer inputs. -/
def CostModel.IsMonotone {ν : Type} [LE ν] (model : CostModel ν) : Prop :=
  ∀ op c inputs costs dearer, List.Forall₂ (· ≤ ·) costs dearer →
    model.cost op c inputs costs ≤ model.cost op c inputs dearer

section Monotone

variable {ν : Type} [Quantity ν] [LinearOrder ν] [OrderedQuantity ν]

/-- Sums from left to right are monotone in all their parts. -/
theorem foldl_add_mono {costs dearer : List ν} (h : List.Forall₂ (· ≤ ·) costs dearer) {a b : ν}
    (hab : a ≤ b) : costs.foldl (· + ·) a ≤ dearer.foldl (· + ·) b := by
  induction h generalizing a b with
  | nil => exact hab
  | @cons x y _ _ hxy _ ih =>
      refine ih ?_
      calc a + x ≤ b + x := OrderedQuantity.add_le_add_right hab x
        _ ≤ b + y := OrderedQuantity.add_le_add_left hxy b

theorem total_mono {costs dearer : List ν} (h : List.Forall₂ (· ≤ ·) costs dearer) :
    total costs ≤ total dearer := by
  cases h with
  | nil => exact le_refl _
  | cons hxy hrest => exact foldl_add_mono hrest hxy

/-- The larger and the smaller of two numbers are those of the order. -/
theorem OrderedQuantity.max_eq (a b : ν) : Quantity.max a b = Max.max a b := by
  unfold Quantity.max
  rw [undefined_eq, lt_eq, if_neg Bool.false_ne_true]
  by_cases hab : a < b
  · rw [if_pos (decide_eq_true hab), max_eq_right hab.le]
  · rw [if_neg fun h => hab (of_decide_eq_true h), max_eq_left (not_lt.mp hab)]

theorem OrderedQuantity.min_eq (a b : ν) : Quantity.min a b = Min.min a b := by
  unfold Quantity.min
  rw [undefined_eq, lt_eq, if_neg Bool.false_ne_true]
  by_cases hba : b < a
  · rw [if_pos (decide_eq_true hba), min_eq_right hba.le]
  · rw [if_neg fun h => hba (of_decide_eq_true h), min_eq_left (not_lt.mp hba)]

/-- The largest of some costs is no less than any of them. -/
theorem le_largest {costs : List ν} {x : ν} (h : x ∈ costs) : x ≤ largest costs := by
  have hstart : ∀ (rest : List ν) (a : ν), a ≤ rest.foldl Quantity.max a := by
    intro rest
    induction rest with
    | nil => exact fun a => le_refl a
    | cons b rest ih =>
        exact fun a => (le_max_left a b).trans (OrderedQuantity.max_eq a b ▸ ih _)
  have hfold : ∀ a : ν, x ≤ costs.foldl Quantity.max a := by
    induction costs with
    | nil => cases h
    | cons b rest ih =>
        intro a
        rcases List.mem_cons.mp h with rfl | h
        · exact (le_max_right a x).trans (OrderedQuantity.max_eq a x ▸ hstart rest _)
        · exact ih h _
  exact hfold _

/-- The row-work model is monotone: the work of an operator does not depend on what its
inputs cost. -/
theorem RowWork.isMonotone_model (m : RowWork ν) : m.model.IsMonotone := by
  intro op c inputs costs dearer h
  unfold RowWork.model
  dsimp only
  split
  · exact le_refl _
  · exact OrderedQuantity.add_le_add_right (total_mono h) _

end Monotone

/-! ## Rational costs -/

/-- The value of a finite double. -/
def Double.toRat (x : Double) : Rat :=
  let exponent : Nat := x.magnitude / 2 ^ 52
  let fraction : Nat := x.magnitude % 2 ^ 52
  let absolute : Rat :=
    if exponent = 0 then (fraction : Rat) / 2 ^ 1074
    else ((2 ^ 52 + fraction : Nat) : Rat) * 2 ^ exponent / 2 ^ 1075
  if x.isNegative then -absolute else absolute

/-- Rational quantities: exact but for logarithms, which are cut to whole numbers. -/
instance : Quantity Rat where
  ofNat n := (n : Rat)
  ofInt n := (n : Rat)
  ofDecimal n e := (n : Rat) / 10 ^ e
  ofFloat x := (Double.ofFloat x).toRat
  neutral := 0
  lt a b := decide (a < b)
  le a b := decide (a ≤ b)
  same a b := decide (a = b)
  undefined _ := false
  precedes a b := decide (a < b)
  log2 a := (Nat.log2 a.floor.toNat : Rat)
  unaffordable := 2 ^ 1024
  unbounded := 2 ^ 1024

instance : OrderedQuantity Rat where
  lt_eq _ _ := rfl
  same_eq _ _ := rfl
  undefined_eq _ := rfl
  add_le_add_right h c := add_le_add_left h c
  add_le_add_left h c := add_le_add_right h c

end QueryPlanner
