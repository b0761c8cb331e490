/-
# Optimizing

The loop of rule and conversion passes, and the plan that is chosen in the end.
-/
import QueryPlanner.Memo.Extraction
import QueryPlanner.Search.Expansion
import QueryPlanner.Search.Pricing

namespace QueryPlanner

namespace Search

variable {ν : Type} [Quantity ν]

open Quantity

/-- Whether a budget has run out. -/
def isExhausted (budget : Budget) (s : Search ν) : Bool :=
  s.cutShort || decide (budget.iterations ≤ s.iterations) || decide (budget.groups ≤ s.memo.groupCount)

/-- Whether the goal is met at no more than the ceiling. Without a ceiling it is not even
looked at. -/
def meetsCeiling (planner : Planner ν) (root : GroupId) (goal : Goal ν) : Step ν Bool := do
  match goal.ceiling with
  | none => pure false
  | some ceiling =>
      findWinners planner
      match (← memoNow).winner root goal.convention with
      | none => pure false
      | some w => pure (le w.cost ceiling)

/-- Expands the memo until nothing changes, a budget runs out or the goal is met cheaply
enough. The answer is whether a budget has run out. A round that is not the last takes
an iteration out of the budget, so the iterations left bound the number of rounds. -/
def expand (planner : Planner ν) (root : GroupId) (goal : Goal ν) : Nat → Step ν Bool
  | 0 => pure true
  | fuel + 1 => do
      if isExhausted planner.budget (← get) then return true
      if ← meetsCeiling planner root goal then return false
      let fired ← fireAll planner
      let converted ← convertAll planner true
      if fired || converted then expand planner root goal fuel else pure false

/-- Finds the winners, and where the goal has none once more after the conversions that
the budget did not allow. -/
def settleGoal (planner : Planner ν) (root : GroupId) (goal : Goal ν) : Step ν (Option (Winner ν)) := do
  findWinners planner
  match (← memoNow).winner root goal.convention with
  | some w => pure (some w)
  | none =>
      let _ ← convertAll planner false
      findWinners planner
      pure ((← memoNow).winner root goal.convention)

/-- The best plan for a group that meets the goal. -/
def optimize (planner : Planner ν) (root : GroupId) (goal : Goal ν) : Step ν (Plan ν) := do
  modifyMemo fun memo => memo.require root goal.convention
  let rounds := planner.budget.iterations - (← get).iterations + 1
  let exhausted ← expand planner root goal rounds
  match ← settleGoal planner root goal with
  | none =>
      if exhausted then throw (.budgetExceeded (← get).iterations goal.convention)
      else throw (.unsatisfiable ((← memoNow).kindName root) goal.convention)
  | some w =>
      let overCeiling := goal.ceiling.any fun ceiling => lt ceiling w.cost
      let node ← (← memoNow).extract root goal.convention
      pure ⟨node, exhausted || overCeiling⟩

end Search

/-- Optimizes the plan of a memo with the row-work model and the usual budgets. -/
def optimize {ν : Type} [Quantity ν] (registry : Registry ν) (catalog : Catalog ν) (memo : Memo ν)
    (root : GroupId) (goal : Goal ν) : Except (OptimizationError ν) (Plan ν) :=
  let planner : Planner ν := ⟨registry, RowWork.standard.model, catalog, {}⟩
  ((Search.optimize planner root goal).run.run { memo := memo }).1

end QueryPlanner
