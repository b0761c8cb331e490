/-
# Physical plans

A plan is a tree of operators, each in the convention it runs in, with its estimated
cost and number of rows.
-/
import QueryPlanner.Operator

namespace QueryPlanner

/-- A node of a plan. -/
inductive PlanNode (ν : Type) where
  | node (id : Nat) (op : Operator) (convention : Convention) (rowType : RowType)
      (cost rows : ν) (children : List (PlanNode ν))
  deriving Inhabited

namespace PlanNode

variable {ν : Type}

/-- The member of the memo that a node was taken from; it identifies the node. -/
def id : PlanNode ν → Nat
  | node id _ _ _ _ _ _ => id

/-- The operator of a node. -/
def op : PlanNode ν → Operator
  | node _ op _ _ _ _ _ => op

/-- The convention a node runs in. -/
def convention : PlanNode ν → Convention
  | node _ _ convention _ _ _ _ => convention

/-- The row type of a node's output. -/
def rowType : PlanNode ν → RowType
  | node _ _ _ rowType _ _ _ => rowType

/-- The cost of the whole tree below and at a node. -/
def cost : PlanNode ν → ν
  | node _ _ _ _ cost _ _ => cost

/-- The estimated number of rows of a node's output. -/
def rows : PlanNode ν → ν
  | node _ _ _ _ _ rows _ => rows

/-- The inputs of a node. -/
def children : PlanNode ν → List (PlanNode ν)
  | node _ _ _ _ _ _ children => children

mutual

/-- The nodes of a tree, each before those below it. -/
def nodes : PlanNode ν → List (PlanNode ν)
  | node id op convention rowType cost rows children =>
      node id op convention rowType cost rows children :: nodesOfList children

/-- The nodes of several trees. -/
def nodesOfList : List (PlanNode ν) → List (PlanNode ν)
  | [] => []
  | n :: rest => nodes n ++ nodesOfList rest

end

/-- The nodes of several trees are those of each of them, in order. -/
theorem nodesOfList_eq (ns : List (PlanNode ν)) : nodesOfList ns = ns.flatMap nodes := by
  induction ns with
  | nil => rfl
  | cons n ns ih => simp [nodesOfList, ih]

/-- The first node of a tree is its root. -/
theorem mem_nodes_self (n : PlanNode ν) : n ∈ n.nodes := by
  cases n
  simp [nodes]

end PlanNode

/-- The plan that a search has chosen. -/
structure Plan (ν : Type) where
  root : PlanNode ν
  /-- Whether the search stopped early, or the plan costs more than it was allowed to. -/
  truncated : Bool
  deriving Inhabited

/-- The cost of a plan. -/
def Plan.cost {ν : Type} (plan : Plan ν) : ν := plan.root.cost

/-! ## Text -/

mutual

/-- A tree as indented lines, its root `indent` steps in. -/
def PlanNode.display (indent : Nat) : PlanNode Float → String
  | .node _ op convention _ cost rows children =>
      String.ofList (List.replicate (2 * indent) ' ') ++ op.display ++ " <" ++ convention.name ++
        "> (cost=" ++ Decimal.fixed 2 cost ++ ", rows=" ++ Decimal.fixed 0 rows ++ ")\n" ++
        PlanNode.displayList (indent + 1) children

/-- Several trees as indented lines. -/
def PlanNode.displayList (indent : Nat) : List (PlanNode Float) → String
  | [] => ""
  | n :: rest => PlanNode.display indent n ++ PlanNode.displayList indent rest

end

/-- A plan as indented lines. -/
def Plan.explain (plan : Plan Float) : String := plan.root.display 0

end QueryPlanner
