/-
# Running a plan
-/
import QueryPlanner.Execution
import QueryPlanner.Plan.Generation

namespace QueryPlanner

/-- Generates code for a plan and runs it. -/
def Plan.execute {ν : Type} (registry : Registry ν) (source : RowSource) (plan : Plan ν) :
    Except ExecutionError (List Row) :=
  match plan.generate registry with
  | .ok executable => executable.run source
  | .error e => .error (.code e)

end QueryPlanner
