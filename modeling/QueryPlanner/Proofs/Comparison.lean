/-
# Comparing costs

A cost is kept if it is not below those of the inputs, and a winner is replaced by one that is
cheaper or as cheap. That what is compared step by step in this way stays in order takes very
little of the numbers: all that are defined are compared as in a linear order. Floats are such
numbers, whatever rounding does to their sums.

* `ComparableQuantity` : quantities that are compared so;
* `le_of_not_lt_largest` : what is not below the largest of some costs is not below any of them;
* `instComparableQuantityFloat` : floats are compared so;
* `RankedQuantity` : quantities that can become smaller only so often, as floats can.
-/
import Mathlib.Data.Prod.Lex
import Mathlib.Data.Set.Card
import Mathlib.Order.Compare
import QueryPlanner.Quantity

namespace QueryPlanner

open Quantity

/-- Quantities of which all that are defined are compared as in a linear order. -/
class ComparableQuantity (ν : Type) [Quantity ν] : Prop where
  le_refl {a : ν} (ha : undefined a = false) : le a a = true
  le_trans {a b c : ν} (hab : le a b = true) (hbc : le b c = true) : le a c = true
  le_of_lt {a b : ν} (h : lt a b = true) : le a b = true
  le_of_same {a b : ν} (h : same a b = true) : le a b = true
  le_of_not_lt {a b : ν} (ha : undefined a = false) (hb : undefined b = false)
    (h : lt a b = false) : le b a = true
  undefined_zero : undefined (ofNat 0 : ν) = false

section Largest

variable {ν : Type} [Quantity ν] [ComparableQuantity ν]

/-- The larger of two numbers is defined, and no less than either. -/
theorem le_max {a b : ν} (ha : undefined a = false) (hb : undefined b = false) :
    undefined (Quantity.max a b) = false ∧ le a (Quantity.max a b) = true ∧
      le b (Quantity.max a b) = true := by
  unfold Quantity.max
  rw [ha, if_neg Bool.false_ne_true]
  split
  · next hlt => exact ⟨hb, ComparableQuantity.le_of_lt hlt, ComparableQuantity.le_refl hb⟩
  · next hlt =>
      exact ⟨ha, ComparableQuantity.le_refl ha,
        ComparableQuantity.le_of_not_lt ha hb (Bool.eq_false_iff.mpr hlt)⟩

theorem le_foldl_max {costs : List ν} (hcosts : ∀ x ∈ costs, undefined x = false) {a : ν}
    (ha : undefined a = false) : undefined (costs.foldl Quantity.max a) = false ∧
      le a (costs.foldl Quantity.max a) = true ∧
        ∀ x ∈ costs, le x (costs.foldl Quantity.max a) = true := by
  induction costs generalizing a with
  | nil => exact ⟨ha, ComparableQuantity.le_refl ha, fun x hx => absurd hx List.not_mem_nil⟩
  | cons b rest ih =>
      obtain ⟨hb, hrest⟩ := List.forall_mem_cons.mp hcosts
      obtain ⟨hmax, hleft, hright⟩ := le_max ha hb
      obtain ⟨hdefined, hle, hall⟩ := ih hrest hmax
      exact ⟨hdefined, ComparableQuantity.le_trans hleft hle,
        List.forall_mem_cons.mpr ⟨ComparableQuantity.le_trans hright hle, hall⟩⟩

/-- What is not below the largest of some costs is not below any of them. -/
theorem le_of_not_lt_largest {costs : List ν} (hcosts : ∀ x ∈ costs, undefined x = false) {a : ν}
    (ha : undefined a = false) (h : lt a (largest costs) = false) {x : ν} (hx : x ∈ costs) :
    le x a = true := by
  obtain ⟨hdefined, -, hall⟩ := le_foldl_max hcosts ComparableQuantity.undefined_zero
  exact ComparableQuantity.le_trans (hall x hx) (ComparableQuantity.le_of_not_lt ha hdefined h)

end Largest

/-! ## Floats -/

open Float.Model

/-- The place of a number among the floats: infinities outside, then by sign, by exponent and by
mantissa; the negative ones the other way round. -/
def floatKey : UnpackedFloat → Int ×ₗ Int ×ₗ Int
  | .infinity .negative => toLex (-2, toLex (0, 0))
  | .finite .negative m e _ => toLex (-1, toLex (-e, -m))
  | .notANumber | .zero _ => toLex (0, toLex (0, 0))
  | .finite .positive m e _ => toLex (1, toLex (e, m))
  | .infinity .positive => toLex (2, toLex (0, 0))

/-- Pairs are compared by their first parts, and by their second ones where these are the same. -/
theorem compares_then {α : Type} [LT α] {first second : Ordering} {x x' : Int} {y y' : α}
    (hx : first.Compares x x') (hy : second.Compares y y') :
    (first.then second).Compares (toLex (x, y)) (toLex (x', y')) := by
  cases first with
  | lt => exact Prod.Lex.toLex_lt_toLex.mpr (Or.inl hx)
  | gt => exact Prod.Lex.toLex_lt_toLex.mpr (Or.inl hx)
  | eq =>
      cases hx
      cases second with
      | lt => exact Prod.Lex.toLex_lt_toLex.mpr (Or.inr ⟨rfl, hy⟩)
      | gt => exact Prod.Lex.toLex_lt_toLex.mpr (Or.inr ⟨rfl, hy⟩)
      | eq =>
          cases hy
          rfl

/-- Whole numbers of the other sign are compared the other way round. -/
theorem compares_neg {o : Ordering} {x y : Int} (h : o.Compares x y) : o.Compares (-y) (-x) := by
  cases o with
  | lt => exact Int.neg_lt_neg h
  | gt => exact Int.neg_lt_neg h
  | eq => exact congrArg Neg.neg h.symm

theorem compares_compare (m₁ m₂ : Nat) :
    (compare m₁ m₂).Compares (m₁ : Int) (m₂ : Int) := by
  have h := (compare_iff m₁ m₂).mp rfl
  rcases ho : compare m₁ m₂ with _ | _ | _
  · rw [ho] at h
    exact Int.ofNat_lt.mpr h
  · rw [ho] at h
    exact congrArg Int.ofNat h
  · rw [ho] at h
    exact Int.ofNat_lt.mpr h

/-- Numbers that are defined are compared by their places. -/
theorem exists_compare_eq {a b : UnpackedFloat} (ha : a.isNaN = false) (hb : b.isNaN = false) :
    ∃ o, a.compare b = some o ∧ o.Compares (floatKey a) (floatKey b) := by
  have hkind : ∀ {x x' : Int} (y y' : Int ×ₗ Int), x < x' →
      (toLex (x, y) : Int ×ₗ Int ×ₗ Int) < toLex (x', y') := fun _ _ h =>
    Prod.Lex.toLex_lt_toLex.mpr (Or.inl h)
  -- all but finite numbers of the same sign are of different kinds, or are the same
  rcases a with (_ | _) | _ | s | ⟨_ | _, m₁, e₁, h₁⟩ <;>
    rcases b with (_ | _) | _ | s | ⟨_ | _, m₂, e₂, h₂⟩ <;>
    first
    | exact absurd ha (by decide)
    | exact absurd hb (by decide)
    | exact ⟨_, rfl, rfl⟩
    | exact ⟨_, rfl, hkind _ _ (by decide)⟩
    | skip
  · have hsign : Ordering.eq.Compares (-1 : Int) (-1) := rfl
    have hparts := compares_then hsign (compares_then (compares_neg ((compare_iff e₁ e₂).mp rfl))
      (compares_neg (compares_compare m₁ m₂)))
    exact ⟨_, rfl, Ordering.compares_swap.mpr hparts⟩
  · have hsign : Ordering.eq.Compares (1 : Int) 1 := rfl
    have hparts := compares_then hsign
      (compares_then ((compare_iff e₁ e₂).mp rfl) (compares_compare m₁ m₂))
    exact ⟨_, rfl, hparts⟩

/-- Numbers that compare at all are defined. -/
theorem isNaN_of_compare {a b : UnpackedFloat} {o : Ordering} (h : a.compare b = some o) :
    a.isNaN = false ∧ b.isNaN = false := by
  cases a <;> cases b <;> first | exact ⟨rfl, rfl⟩ | cases h

/-- The place of a float. -/
def floatPlace (a : Float) : Int ×ₗ Int ×ₗ Int := floatKey a.toModel.unpack

/-- How two floats compare. -/
def compareFloat (a b : Float) : Option Ordering := a.toModel.unpack.compare b.toModel.unpack

/-- Floats that are defined are compared by their places, and others not at all. -/
theorem compareFloat_eq_some_iff {a b : Float} {o : Ordering} : compareFloat a b = some o ↔
    undefined a = false ∧ undefined b = false ∧ o.Compares (floatPlace a) (floatPlace b) := by
  constructor
  · intro h
    obtain ⟨ha, hb⟩ := isNaN_of_compare h
    obtain ⟨o', ho', hcompares⟩ := exists_compare_eq ha hb
    cases h.symm.trans ho'
    exact ⟨ha, hb, hcompares⟩
  · rintro ⟨ha, hb, hcompares⟩
    obtain ⟨o', ho', hcompares'⟩ := exists_compare_eq ha hb
    rw [hcompares.inj hcompares']
    exact ho'

theorem lt_float_iff (a b : Float) : Quantity.lt a b = true ↔ compareFloat a b = some .lt :=
  (decide_eq_true_iff.trans decide_eq_true_iff).trans beq_iff_eq

theorem same_float_iff (a b : Float) : same a b = true ↔ compareFloat a b = some .eq :=
  beq_iff_eq (a := compareFloat a b)

theorem le_float_iff (a b : Float) : Quantity.le a b = true ↔
    undefined a = false ∧ undefined b = false ∧ floatPlace a ≤ floatPlace b := by
  have hle : Quantity.le a b = true ↔ (compareFloat a b).any (·.isLE) = true :=
    decide_eq_true_iff.trans decide_eq_true_iff
  rw [hle, Option.any_eq_true, le_iff_lt_or_eq]
  constructor
  · rintro ⟨o, ho, hisLE⟩
    obtain ⟨ha, hb, hcompares⟩ := compareFloat_eq_some_iff.mp ho
    refine ⟨ha, hb, ?_⟩
    cases o with
    | lt => exact Or.inl hcompares
    | eq => exact Or.inr hcompares
    | gt => cases hisLE
  · rintro ⟨ha, hb, hlt | heq⟩
    · exact ⟨.lt, compareFloat_eq_some_iff.mpr ⟨ha, hb, hlt⟩, rfl⟩
    · exact ⟨.eq, compareFloat_eq_some_iff.mpr ⟨ha, hb, heq⟩, rfl⟩

/-- What is above a number is not below it, nor the same. -/
theorem le_float_of_lt {a b : Float} (h : Quantity.lt a b = true) : Quantity.le b a = false := by
  obtain ⟨-, -, hlt⟩ := compareFloat_eq_some_iff.mp ((lt_float_iff a b).mp h)
  refine Bool.eq_false_iff.mpr fun hle => ?_
  obtain ⟨-, -, hge⟩ := (le_float_iff b a).mp hle
  exact lt_irrefl (floatPlace a) (hlt.trans_le hge)

/-- Floats that are defined are compared as in a linear order. -/
instance instComparableQuantityFloat : ComparableQuantity Float where
  le_refl ha := (le_float_iff _ _).mpr ⟨ha, ha, le_refl _⟩
  le_trans hab hbc := by
    obtain ⟨ha, -, hab⟩ := (le_float_iff _ _).mp hab
    obtain ⟨-, hc, hbc⟩ := (le_float_iff _ _).mp hbc
    exact (le_float_iff _ _).mpr ⟨ha, hc, hab.trans hbc⟩
  le_of_lt h := by
    obtain ⟨ha, hb, hlt⟩ := compareFloat_eq_some_iff.mp ((lt_float_iff _ _).mp h)
    exact (le_float_iff _ _).mpr ⟨ha, hb, le_of_lt hlt⟩
  le_of_same h := by
    obtain ⟨ha, hb, heq⟩ := compareFloat_eq_some_iff.mp ((same_float_iff _ _).mp h)
    exact (le_float_iff _ _).mpr ⟨ha, hb, le_of_eq heq⟩
  le_of_not_lt {a b} ha hb h := by
    refine (le_float_iff _ _).mpr ⟨hb, ha, le_of_not_gt fun hlt => ?_⟩
    rw [(lt_float_iff a b).mpr (compareFloat_eq_some_iff.mpr ⟨ha, hb, hlt⟩)] at h
    cases h
  undefined_zero := by decide +kernel

/-! ## Ranks -/

/-- Quantities with ranks, which are below some number and are smaller for smaller ones. -/
class RankedQuantity (ν : Type) [Quantity ν] where
  rank : ν → Nat
  rank_lt (a : ν) : rank a < UInt64.size
  rank_lt_rank {a b : ν} (h : lt a b = true) : rank a < rank b
  rank_eq_rank {a b : ν} (h : same a b = true) : rank a = rank b

/-- There are no more floats than words of 64 bits. -/
theorem injective_toBits : Function.Injective fun a : Float => a.toBits.toFin := by
  intro a b h
  obtain ⟨⟨bits, valid⟩⟩ := a
  obtain ⟨⟨bits', valid'⟩⟩ := b
  obtain rfl : bits = bits' := UInt64.toFin_inj.mp h
  rfl

instance finite_float : Finite Float := Finite.of_injective _ injective_toBits

/-- The rank of a float is the number of those in front of it. -/
noncomputable instance : RankedQuantity Float where
  rank a := {b : Float | floatPlace b < floatPlace a}.ncard
  rank_lt a := by
    have hcard : Nat.card Float ≤ UInt64.size :=
      (Nat.card_le_card_of_injective _ injective_toBits).trans_eq (Nat.card_fin _)
    refine Nat.lt_of_lt_of_le ?_ hcard
    exact Set.ncard_lt_card (Set.ne_univ_iff_exists_notMem _ |>.mpr ⟨a, lt_irrefl (floatPlace a)⟩)
  rank_lt_rank {a b} h := by
    obtain ⟨-, -, hlt⟩ := compareFloat_eq_some_iff.mp ((lt_float_iff a b).mp h)
    refine Set.ncard_lt_ncard ⟨fun c hc => lt_trans hc hlt, fun hle => ?_⟩ (Set.toFinite _)
    exact lt_irrefl (floatPlace a) (hle hlt)
  rank_eq_rank {a b} h := by
    obtain ⟨-, -, heq⟩ := compareFloat_eq_some_iff.mp ((same_float_iff a b).mp h)
    rw [show floatPlace a = floatPlace b from heq]

end QueryPlanner
