/-
# The layers of a plan in a memo

Building adds a plan from the leaves up, so that every group has a member over groups of smaller
numbers. Merges may make a group read itself later, but it keeps that member: an induction on the
plan goes along the numbers that its groups had at first.

* `Memo.IsLayered` : every group has such a member;
* `Memo.Extends.isLayered` : adding operators keeps it so;
* `Request.layers_of_build` : what a search of a plan starts from.
-/
import QueryPlanner.Proofs.Logical.Resolution
import QueryPlanner.Proofs.Search.Rounds

namespace QueryPlanner

variable {ν : Type}

/-- The operators of a plan convert nothing. -/
theorem LogicalPlan.kind_ne_converter {plan : LogicalPlan} :
    ∀ op ∈ plan.operators, op.kind ≠ .converter := by
  induction plan with
  | values | scan =>
      exact List.forall_mem_singleton.mpr (by simp [Operator.kind])
  | filter _ _ ih | project _ _ _ ih | sort _ _ ih | limit _ _ _ ih =>
      exact List.forall_mem_cons.mpr ⟨by simp [Operator.kind], ih⟩
  | join _ _ _ _ ihl ihr =>
      refine List.forall_mem_cons.mpr ⟨by simp [Operator.kind], fun op hop => ?_⟩
      exact (List.mem_append.mp hop).elim (ihl op) (ihr op)

namespace Memo

variable {memo after : Memo ν} {op : Operator} {children : List GroupId} {g : GroupId}
  {ops : List Operator}

/-- Every group has a logical member that is no converter, over groups of smaller numbers. -/
def IsLayered (memo : Memo ν) : Prop :=
  ∀ g < memo.groups.size, ∃ op children, op.kind ≠ .converter ∧ (∀ child ∈ children, child < g) ∧
    memo.Has g op .logical children (children.map fun _ => .logical)

theorem isLayered_empty : (empty : Memo ν).IsLayered := fun g hg => absurd hg (Nat.not_lt_zero g)

/-- Adding operators makes a memo grow, and keeps it layered. -/
theorem Extends.isLayered (h : Extends ops memo after) (hops : ∀ op ∈ ops, op.kind ≠ .converter)
    (hmemo : memo.Settled) (hlayered : memo.IsLayered) : memo.GrowsTo after ∧ after.IsLayered := by
  induction h with
  | refl => exact ⟨hmemo.growsTo_self, hlayered⟩
  | @add mid after op children g _ hop hlt _ hrun ih =>
      obtain ⟨hmid, hlayered'⟩ := ih
      obtain ⟨hadds, hhas, -⟩ := hmid.settled.returns_addLogical hlt hrun
      refine ⟨hmid.trans hadds.toGrowsTo, fun x hx => ?_⟩
      rcases Nat.lt_or_ge x mid.groups.size with hold | hnew
      · obtain ⟨op', children', hkind, hbelow, hhas'⟩ := hlayered' x hold
        exact ⟨op', children', hkind, hbelow, hadds.toGrowsTo.has hmid.settled hhas'⟩
      · -- the only new group is that of the operator, which is over the old ones
        rcases hmid.settled.size_of_returns_addLogical hrun with rfl | ⟨rfl, hsize, -⟩
        · exact absurd hx (Nat.not_lt_of_le hnew)
        · obtain rfl : x = mid.groups.size :=
            Nat.le_antisymm (Nat.le_of_lt_succ (lt_of_lt_of_eq hx hsize)) hnew
          exact ⟨op, children, hops op hop, hlt, hhas⟩

/-- It keeps a memo one of logical members. -/
theorem Extends.logicallyBuilt (h : Extends ops memo after) (hmemo : Search.LogicallyBuilt memo) :
    Search.LogicallyBuilt after := by
  induction h with
  | refl => exact hmemo
  | @add mid after op children g _ _ hlt _ hrun ih =>
      have hafter := ih.addLogical op hlt
      rwa [show (addLogical op children).run.run mid = (.ok g, after) from hrun] at hafter

end Memo

/-- The memo that is built for a plan has nothing but logical members, in layers. -/
theorem Request.layers_of_build {tables : List Table} {relation : Relation} {root : GroupId}
    {memo : Memo Float} (hbuild : (build tables relation).run.run {} = (.ok root, memo)) :
    Search.LogicallyBuilt memo ∧ memo.IsLayered ∧ root < memo.groups.size := by
  obtain ⟨-, -, hroot, plan, -, -, hextends⟩ := exists_logical_of_build Memo.derives_empty hbuild
  obtain ⟨-, hlayered⟩ := hextends.isLayered LogicalPlan.kind_ne_converter Memo.settled_empty
    Memo.isLayered_empty
  exact ⟨hextends.logicallyBuilt .empty, hlayered, hroot⟩

end QueryPlanner
