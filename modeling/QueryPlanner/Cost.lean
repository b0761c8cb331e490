/-
# Costs

The cost of a plan is the cost of its inputs plus that of the work done at its root.
A cost model gives this total for an operator in a convention. The model every planner
starts with counts the rows an operator touches and scales them by a factor of the
convention: generated code is cheaper by the row than pulling, and a foreign source is
dearer.
-/
import QueryPlanner.Statistics

namespace QueryPlanner

open Quantity

/-- The total cost of an operator in a convention, from the statistics and the costs of
its inputs. A leaf is given its own statistics. -/
structure CostModel (ν : Type) where
  cost : Operator → Convention → List (Statistics ν) → List ν → ν

/-- Two costs are near when they differ by less than the spacing of floats around one. -/
def nearCost (a b : Float) : Bool := decide ((a - b).abs < Float.ofBits 0x3cb0000000000000)

/-- How two costs compare, if they do. -/
def compareCost (a b : Float) : Option Ordering :=
  if a < b then some .lt else if b < a then some .gt else if a == b then some .eq else none

/-- The weights of the row-work model. -/
structure RowWork (ν : Type) where
  /-- The weight of a row processed or a comparison made. -/
  cpu : ν
  /-- The weight of a byte held back. -/
  memory : ν
  iterator : ν
  compiled : ν
  compiledRecord : ν
  federated : ν

namespace RowWork

variable {ν : Type} [Quantity ν]

/-- The usual weights. -/
def standard : RowWork ν where
  cpu := ofNat 1
  memory := ofDecimal 1 2
  iterator := ofNat 1
  compiled := ofDecimal 5 1
  compiledRecord := ofDecimal 6 1
  federated := ofNat 2

/-- The factor of work in a convention; one the model does not know costs like pulling. -/
def factor (m : RowWork ν) (c : Convention) : ν :=
  if c = .logical then unbounded
  else if c = .iterator then m.iterator
  else if c = .compiled then m.compiled
  else if c = .compiledRecord then m.compiledRecord
  else if c = .federated then m.federated
  else m.iterator

/-- The number of rows up to the end of a limit's window, which is a 64-bit count. -/
def windowEnd (offset count : Nat) : Nat := Nat.min (offset + count) (UInt64.size - 1)

/-- The work at an operator, before the factor of its convention. -/
def work (m : RowWork ν) (op : Operator) (inputs : List (Statistics ν)) : ν :=
  let rows := (inputs[0]?.map Statistics.rows).getD (ofNat 1000)
  match op with
  | .values _ values => m.cpu * ofNat values.length
  | .scan _ _ => m.cpu * rows
  | .filter _ => m.cpu * rows
  | .project exprs _ => m.cpu * rows * (ofNat 1 + ofNat exprs.length * ofDecimal 1 1)
  | .join _ _ =>
      let others := (inputs[1]?.map Statistics.rows).getD (ofNat 1000)
      m.cpu * (rows + rows * others)
  | .sort _ =>
      let comparisons := if lt (ofNat 1) rows then rows * log2 rows else ofNat 1
      let bytes := (inputs[0]?.map Statistics.bytes).getD (ofNat 0)
      m.cpu * comparisons + m.memory * bytes
  | .limit offset count => m.cpu * min rows (ofNat (windowEnd offset count))
  | .converter _ => ofNat 0

/-- The row-work model with the given weights. -/
def model (m : RowWork ν) : CostModel ν where
  cost op c inputs costs :=
    if c = .logical then unaffordable else total costs + m.work op inputs * m.factor c

end RowWork

end QueryPlanner
