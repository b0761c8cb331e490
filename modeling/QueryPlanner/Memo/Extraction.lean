/-
# Reading a plan off the winners

The plan of a group in a convention consists of the winner there over the plans of the
winner's inputs.
-/
import QueryPlanner.Memo
import QueryPlanner.Plan

namespace QueryPlanner

namespace Memo

variable {ν : Type} [Quantity ν]

/-- The plan of a group in a convention, below the groups and conventions of `above`.
None of those may occur again, so the number of winners bounds the depth. -/
def extractBelow (memo : Memo ν) :
    Nat → List (GroupId × Convention) → GroupId → Convention →
      Except (OptimizationError ν) (PlanNode ν)
  | 0, _, g, c => .error (.cyclicPlan (memo.leader g) c)
  | fuel + 1, above, g, c => do
      let g := memo.leader g
      if above.contains (g, c) then throw (.cyclicPlan g c)
      match memo.winner g c with
      | none => throw (.unsatisfiable (memo.kindName g) c)
      | some w =>
          let m := memo.member w.member
          let children ← (m.children.zip m.inputs).mapM fun (child, input) =>
            extractBelow memo fuel ((g, c) :: above) child input
          let rows := match (memo.group g).statistics with
            | some s => s.rows
            | none => Quantity.ofNat 0
          pure (.node m.id m.op m.convention (memo.group g).rowType w.cost rows children)

/-- The number of winners of all groups. -/
def winnerCount (memo : Memo ν) : Nat :=
  (memo.groups.toList.flatMap Group.winners).length

/-- The plan of a group in a convention. -/
def extract (memo : Memo ν) (g : GroupId) (c : Convention) :
    Except (OptimizationError ν) (PlanNode ν) :=
  memo.extractBelow (memo.winnerCount + 1) [] g c

end Memo

end QueryPlanner
