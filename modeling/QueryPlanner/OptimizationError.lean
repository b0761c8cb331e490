/-
# Why an optimization fails

Either no plan exists, or the search was not allowed to look long enough, or a rule or
a cost model broke one of the planner's invariants.
-/
import QueryPlanner.Operator

namespace QueryPlanner

/-- The failure of one optimization. -/
inductive OptimizationError (ν : Type) where
  /-- No member of the root group can be produced in the required convention. -/
  | unsatisfiable (operator : String) (required : Convention)
  /-- The search budget ran out before any plan was found. -/
  | budgetExceeded (iterations : Nat) (required : Convention)
  /-- A rule proposed an alternative whose row type disagrees with its group. -/
  | rowTypeMismatch (rule : String) (expected actual : RowType)
  /-- A node came out cheaper than one of its inputs. -/
  | nonMonotonicCost (node : String) (cost inputCost : ν)
  /-- An operator was given the wrong number of inputs. -/
  | invalidExpression (mismatch : ArityMismatch)
  /-- A plan would contain itself. -/
  | cyclicPlan (group : Nat) (convention : Convention)
  /-- The costs still improved after as many rounds as there are costs to improve. -/
  | unsettledCosts
  deriving Inhabited

/-- An error in words. -/
def OptimizationError.message : OptimizationError Float → String
  | unsatisfiable operator required =>
      "cannot implement " ++ operator ++ " in convention " ++ required.name
  | budgetExceeded iterations required =>
      "search budget exhausted after " ++ toString iterations ++
        " iterations without a plan in " ++ required.name
  | rowTypeMismatch rule expected actual =>
      "rule " ++ rule ++ " produced row type " ++ actual.display ++
        " for a group of row type " ++ expected.display
  | nonMonotonicCost node cost inputCost =>
      "cost of " ++ node ++ " (" ++ Decimal.plain.render cost ++ ") is below its input cost (" ++
        Decimal.plain.render inputCost ++ ")"
  | invalidExpression mismatch =>
      mismatch.kind.name ++ " expects " ++ toString mismatch.expected ++ " inputs, got " ++
        toString mismatch.actual
  | cyclicPlan group convention =>
      "cyclic plan through group " ++ toString group ++ " in " ++ convention.name
  | unsettledCosts => "costs do not settle"

end QueryPlanner
