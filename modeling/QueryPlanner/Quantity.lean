/-
# Quantities

Row counts, selectivities and costs are quantities: numbers that a planner estimates
with. The planner only asks of them what this class lists, so that the same
definitions run on floats and can be reasoned about over any exact number system.
-/
import QueryPlanner.Double

namespace QueryPlanner

/-- Numbers to estimate with. -/
class Quantity (ν : Type) extends Add ν, Sub ν, Mul ν, Div ν where
  /-- A natural number. -/
  ofNat : Nat → ν
  /-- An integer. -/
  ofInt : Int → ν
  /-- The decimal `n * 10 ^ (-e)`. -/
  ofDecimal : Nat → Nat → ν
  /-- The value of a float. -/
  ofFloat : Float → ν
  /-- What leaves every number unchanged when added to it. -/
  neutral : ν
  /-- Below, by value. -/
  lt : ν → ν → Bool
  /-- Below or equal, by value. -/
  le : ν → ν → Bool
  /-- Equal by value. -/
  same : ν → ν → Bool
  /-- Whether this is the result of an operation that has none. -/
  undefined : ν → Bool
  /-- A total order that agrees with the order by value, used to pick extremes. -/
  precedes : ν → ν → Bool
  /-- The logarithm to base two. -/
  log2 : ν → ν
  /-- The cost of what cannot be run. -/
  unaffordable : ν
  /-- The factor of work that cannot be done. -/
  unbounded : ν

namespace Quantity

variable {ν : Type} [Quantity ν]

/-- The larger of two numbers; the first where neither is, and the other one beside an
undefined number. -/
def max (a b : ν) : ν := if undefined a then b else if lt a b then b else a

/-- The smaller of two numbers; the first where neither is, and the other one beside an
undefined number. -/
def min (a b : ν) : ν := if undefined a then b else if lt b a then b else a

/-- `a` moved into the range from `low` to `high`. -/
def clamp (a low high : ν) : ν :=
  let a := if lt a low then low else a
  if lt high a then high else a

/-- The sum of a list, from left to right. -/
def total : List ν → ν
  | [] => neutral
  | a :: rest => rest.foldl (· + ·) a

/-- The product of a list, from left to right. -/
def product (as : List ν) : ν := as.foldl (· * ·) (ofNat 1)

/-- The largest of a list and zero. -/
def largest (as : List ν) : ν := as.foldl max (ofNat 0)

end Quantity

/-! ## Floats -/

instance : Quantity Float where
  ofNat := Float.ofNat
  ofInt := Float.ofInt
  ofDecimal n e := Float.ofScientific n true e
  ofFloat := id
  neutral := -0.0
  lt a b := decide (a < b)
  le a b := decide (a ≤ b)
  same a b := a == b
  undefined := Float.isNaN
  precedes a b := decide ((Double.ofFloat a).key < (Double.ofFloat b).key)
  log2 := Float.log2
  unaffordable := Float.ofBits 0x7fefffffffffffff
  unbounded := Float.ofBits 0x7ff0000000000000

end QueryPlanner
