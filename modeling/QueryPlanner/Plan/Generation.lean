/-
# Code for a plan

Every node of a plan is turned into a fragment after its inputs: by the convertlet of
its pair of conventions where it converts, and by the implementor of its convention
otherwise. A node that occurs several times is turned into code once.
-/
import QueryPlanner.Registry

namespace QueryPlanner

namespace PlanNode

variable {ν : Type}

/-- Generating while remembering the fragments of the nodes seen so far. -/
abbrev Realize (α : Type) : Type := StateT (Dictionary Nat Fragment) Generate α

/-- The fragment of a node over the fragments of its inputs. -/
def assemble (registry : Registry ν) (node : PlanNode ν) (inputs : List Fragment) :
    Generate Fragment := do
  match node.op with
  | .converter source =>
      match registry.convertlet? source node.convention with
      | none => throw (.noConversion source node.convention)
      | some convertlet =>
          match inputs.getLast? with
          | none => throw (.fragmentMismatch node.op.display "single input")
          | some child => convertlet.realize child node.rowType
  | _ =>
      match registry.implementor? node.convention with
      | none => throw (.missingImplementor node.convention)
      | some implementor => implementor.implement node inputs

mutual

/-- The fragment of a node. -/
def realize (registry : Registry ν) : PlanNode ν → Realize Fragment
  | .node id op convention rowType cost rows children => do
      match (← get).get? id with
      | some done => pure done
      | none =>
          let inputs ← realizeList registry children
          let node := PlanNode.node id op convention rowType cost rows children
          let fragment ← (assemble registry node inputs : Generate Fragment)
          modify fun done => done.insert id fragment
          pure fragment

/-- The fragments of several nodes. -/
def realizeList (registry : Registry ν) : List (PlanNode ν) → Realize (List Fragment)
  | [] => pure []
  | n :: rest => do
      let fragment ← realize registry n
      let fragments ← realizeList registry rest
      pure (fragment :: fragments)

end

end PlanNode

/-- Finishes the fragment of a plan's root: generated code hands out its rows. -/
def Fragment.close (root : String) : Fragment → Except CodeError Executable
  | .iterator p => .ok (.pipeline p)
  | .code block => .ok (.program block.close)
  | .remote _ _ => .error (.fragmentMismatch root "iterator or code")

/-- What runs a plan. -/
def Plan.generate {ν : Type} (registry : Registry ν) (plan : Plan ν) : Except CodeError Executable :=
  match ((plan.root.realize registry).run []).run.run 0 with
  | (.ok (fragment, _), _) => fragment.close plan.root.op.display
  | (.error e, _) => .error e

end QueryPlanner
