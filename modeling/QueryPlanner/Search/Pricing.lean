/-
# Statistics, costs and winners

The statistics of a group are derived once, from its first logical member that does not
read the group itself. Winners are found by relaxation: passes over all physical
members go on until none of them improves on a winner, which also settles members that
read their own group.
-/
import QueryPlanner.Search
import QueryPlanner.Statistics.Selectivity

namespace QueryPlanner

namespace Search

variable {ν : Type} [Quantity ν]

open Quantity

/-! ## Statistics -/

/-- Records the statistics of a group. -/
def setStatistics (memo : Memo ν) (g : GroupId) (s : Statistics ν) : Memo ν :=
  memo.modifyGroup g fun group => { group with statistics := some s }

/-- The first logical member of a group that does not read the group. -/
def representative (memo : Memo ν) (g : GroupId) : Option Member :=
  (memo.membersOf g).find? fun m =>
    m.isLogical && !m.children.any fun child => decide (memo.leader child = memo.leader g)

/-- Derives the statistics of a group and of all it reads. A group that reaches itself
counts as unknown there. Every level gives statistics to a group that had none, so the
number of groups is fuel enough. -/
def deriveStatistics (catalog : Catalog ν) : Nat → GroupId → StateM (Memo ν) Unit
  | 0, _ => pure ()
  | fuel + 1, g => do
      let memo ← get
      if (memo.group g).statistics.isSome then return
      set (setStatistics memo g .unknown)
      let s ← match representative memo g with
        | none => pure .unknown
        | some m => do
            let inputs ← m.children.mapM fun child => do
              deriveStatistics catalog fuel child
              pure ((← get).statisticsOf child)
            pure (m.op.estimate catalog.statistics? inputs)
      modify fun memo => setStatistics memo g s

/-- Derives the statistics of a group, if it has none. -/
def priceGroup (catalog : Catalog ν) (memo : Memo ν) (g : GroupId) : Memo ν :=
  ((deriveStatistics catalog (memo.groups.size + 1) g).run memo).2

/-! ## Costs -/

/-- The winners of a member's inputs, if all of them have one. -/
def inputWinners (memo : Memo ν) (m : Member) : Option (List (GroupId × ν)) :=
  (m.children.zip m.inputs).mapM fun (child, c) =>
    (memo.winner child c).map fun w => (child, w.cost)

/-- The cost of a physical member over the winners of its inputs. There is none while an
input has no winner, nor for a converter without a convertlet. -/
def costOf (planner : Planner ν) (memo : Memo ν) (m : Member) : Option (ν × List ν) := do
  let inputs ← inputWinners memo m
  let costs := inputs.map Prod.snd
  let own := memo.statisticsOf m.group
  match m.op with
  | .converter source =>
      let convertlet ← planner.registry.convertlet? source m.convention
      let price := convertlet.price (memo.group m.group).rowType own.rows
      pure (costs.headD (ofNat 0) + price, costs)
  | op =>
      let statistics := inputs.map fun (child, _) => memo.statisticsOf child
      let statistics := if statistics.isEmpty then [own] else statistics
      pure (planner.costs.cost op m.convention statistics costs, costs)

/-- The cost of a physical member, which must not be below that of any input. -/
def checkedCost (planner : Planner ν) (memo : Memo ν) (m : Member) :
    Except (OptimizationError ν) (Option ν) :=
  match costOf planner memo m with
  | none => .ok none
  | some (cost, inputs) =>
      let inputCost := largest inputs
      if undefined cost || lt cost inputCost then
        .error (.nonMonotonicCost (m.op.display ++ " <" ++ m.convention.name ++ ">") cost inputCost)
      else .ok (some cost)

/-! ## Winners -/

/-- Whether a member of some cost is to replace a winner: it is cheaper, or as cheap and
older. -/
def improves (m : MemberId) (cost : ν) : Option (Winner ν) → Bool
  | none => true
  | some w => lt cost w.cost || (same cost w.cost && decide (m < w.member))

/-- Makes a member the winner of its convention, if it improves on the one so far. The
answer is whether it did. -/
def relax (planner : Planner ν) (g : GroupId) (m : MemberId) : Step ν Bool := do
  let memo ← memoNow
  let member := memo.member m
  if member.isLogical then return false
  match ← checkedCost planner memo member with
  | none => pure false
  | some cost =>
      if improves m cost (memo.winner g member.convention) then
        modifyMemo fun memo => memo.modifyGroup g fun group =>
          { group with winners := group.winners.insert member.convention ⟨m, cost⟩ }
        pure true
      else pure false

/-- One pass over the members of some groups. The answer is whether any winner changed. -/
def relaxGroups (planner : Planner ν) (groups : List GroupId) : Step ν Bool := do
  let mut changed := false
  for g in groups do
    for m in ((← memoNow).group g).members do
      if ← relax planner g m then changed := true
  return changed

/-- Passes until nothing changes. -/
def settle (planner : Planner ν) (groups : List GroupId) : Nat → Step ν Unit
  | 0 => throw .unsettledCosts
  | fuel + 1 => do
      if ← relaxGroups planner groups then settle planner groups fuel

/-- More passes than there can be improvements: every pass but the last improves on some
winner, of which there are no more than members, and it can do so once for each 64-bit
cost and member. -/
def settleFuel (memo : Memo ν) : Nat :=
  UInt64.size * ((memo.memberCount + 1) * (memo.memberCount + 1))

/-- Finds the winners of every group anew. -/
def findWinners (planner : Planner ν) : Step ν Unit := do
  let groups := (← memoNow).liveGroups
  modifyMemo fun memo => groups.foldl (fun memo g =>
    priceGroup planner.catalog (memo.modifyGroup g fun group => { group with winners := [] }) g) memo
  settle planner groups (settleFuel (← memoNow))

end Search

end QueryPlanner
