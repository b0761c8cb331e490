/-
# Plans are well formed

A winner costs no less than the winners that it reads: it did when it was crowned, and they have
only become cheaper since. Together with what a search keeps of the memo, this makes every node of
an extracted plan fit its inputs, and every converter in it bridge two conventions.

* `PlanNode.IsWellFormed` : a node fits its inputs;
* `isOrdered_findWinners` : winners cost no less than what they read;
* `isExtract_extractBelow` : all nodes of a plan that is extracted are well formed;
* `isWellFormed_of_returns_optimize` : a search with regular rules returns plans of such nodes.
-/
import QueryPlanner.Proofs.Comparison
import QueryPlanner.Proofs.Plan.Extraction
import QueryPlanner.Proofs.Registry
import QueryPlanner.Proofs.Search.Integrity

namespace QueryPlanner

open Quantity

variable {ν : Type} [Quantity ν]

/-- A node that fits its inputs: it can be run, it has as many inputs as its operator takes, their
row types give its own, and it costs no less than any of them; and a converter takes the same rows
over from another convention, for which there is a convertlet. -/
structure PlanNode.IsWellFormed (registry : Registry ν) (n : PlanNode ν) : Prop where
  physical : n.convention ≠ .logical
  arity : n.children.length = n.op.arity
  rowType : n.op.deriveRowType (n.children.map PlanNode.rowType) = .ok n.rowType
  cost : ∀ child ∈ n.children, le child.cost n.cost = true
  converter : ∀ source, n.op = .converter source → ∃ child, n.children = [child] ∧
    child.convention = source ∧ source ≠ n.convention ∧ child.rowType = n.rowType ∧
      (registry.convertlet? source n.convention).isSome

namespace Search

open Memo

variable {planner : Planner ν} {memo : Memo ν}

/-! ## Costs along a plan -/

/-- Every winner has a defined cost, which is no less than those of the winners that it reads. -/
def IsOrdered (memo : Memo ν) : Prop :=
  ∀ g c w, memo.winner g c = some w → undefined w.cost = false ∧
    ∀ slot ∈ (memo.member w.member).slots, ∃ v, memo.winner slot.1 slot.2 = some v ∧
      le v.cost w.cost = true

section Costs

variable [ComparableQuantity ν]

/-- A member is crowned at a cost that is no less than those of the winners that it reads, and what
it replaces was no cheaper. -/
theorem isKeptByCrowning_isOrdered : IsKeptByCrowning planner IsOrdered := by
  intro memo g m x costs hg _ _ hcost ⟨hdefined, hlt⟩ himproves h other d w hw
  have hmember : ∀ i, (crown memo g (memo.member m).convention ⟨m, x⟩).member i = memo.member i :=
    (crown_sameUpTo memo g _ _).member
  -- what takes the place of a winner costs no more than it
  have hcheaper : ∀ {other d v y}, memo.winner other d = some v → le v.cost y = true →
      ∃ v', (crown memo g (memo.member m).convention ⟨m, x⟩).winner other d = some v' ∧
        le v'.cost y = true := by
    intro other d v y
    refine exists_winner_crown hg (P := fun z => le z y = true) fun v hv hle => ?_
    rw [hv] at himproves
    exact ComparableQuantity.le_trans ((lt_or_same_of_improves himproves).elim
      ComparableQuantity.le_of_lt ComparableQuantity.le_of_same) hle
  rw [winner_crown hg] at hw
  split at hw
  · cases hw
    refine ⟨hdefined, fun slot hslot => ?_⟩
    rw [hmember] at hslot
    have hcosts : ∀ y ∈ costs, undefined y = false := by
      intro y hy
      obtain ⟨other, d, v, hv, rfl⟩ := exists_winner_of_mem_costs hcost hy
      exact (h other d v hv).1
    obtain ⟨v, hv, hvcost⟩ := exists_winner_of_mem_slots hcost hslot
    exact hcheaper hv (le_of_not_lt_largest hcosts hdefined hlt hvcost)
  · obtain ⟨hw', hreads⟩ := h other d w hw
    refine ⟨hw', fun slot hslot => ?_⟩
    rw [hmember] at hslot
    obtain ⟨v, hv, hle⟩ := hreads slot hslot
    exact hcheaper hv hle

/-- When winners were found, they cost no less than what they read. -/
theorem isOrdered_findWinners {s t : Search ν} (hled : s.memo.Led)
    (h : Returns (findWinners planner) s () t) : IsOrdered t.memo :=
  (returns_findWinners hled h isKeptByCrowning_isOrdered fun _ _ hnone g c w hw => by
    rw [hnone] at hw
    cases hw).1

end Costs

/-! ## Extracted plans -/

/-- What is known of a node that was extracted for a group in a convention: it stands for the
winner there, and all nodes of the tree below it are well formed. -/
structure IsExtract (registry : Registry ν) (memo : Memo ν) (g : GroupId) (c : Convention)
    (n : PlanNode ν) : Prop where
  convention : n.convention = c
  rowType : n.rowType = (memo.group g).rowType
  cost : (memo.winner g c).map Winner.cost = some n.cost
  nodes : ∀ k ∈ n.nodes, k.IsWellFormed registry

omit [Quantity ν] in
/-- What is extracted for the inputs of a member, of the row types of their groups and in the
conventions required of them, is of the row types and in the conventions that the member reads. -/
theorem inputs_of_extracts {m : Member} (hlength : m.inputs.length = m.children.length)
    {children : List (PlanNode ν)} (h : List.Forall₂ (fun slot n =>
      n.rowType = (memo.group slot.1).rowType ∧ n.convention = slot.2) m.slots children) :
    (children.map PlanNode.rowType = m.children.map fun child => (memo.group child).rowType) ∧
      children.map PlanNode.convention = m.inputs := by
  have hgroups : m.slots.map Prod.fst = m.children := List.map_fst_zip (Nat.le_of_eq hlength.symm)
  have hconventions : m.slots.map Prod.snd = m.inputs := List.map_snd_zip (Nat.le_of_eq hlength)
  constructor
  · rw [← hgroups, List.map_map, ← List.forall₂_eq_eq_eq, List.forall₂_map_left_iff,
      List.forall₂_map_right_iff]
    exact h.flip.imp fun n slot hn => hn.1
  · rw [← hconventions, ← List.forall₂_eq_eq_eq, List.forall₂_map_left_iff,
      List.forall₂_map_right_iff]
    exact h.flip.imp fun n slot hn => hn.2

/-- What was extracted for the inputs of a member is as much as its operator takes, and gives the
row type of its group. -/
theorem deriveRowType_of_extracts {registry : Registry ν} (h : memo.Settled) {m : MemberId}
    (hm : m < memo.members.size) {children : List (PlanNode ν)}
    (hchildren : List.Forall₂ (fun slot n => IsExtract registry memo slot.1 slot.2 n)
      (memo.member m).slots children) :
    children.length = (memo.member m).op.arity ∧
      (memo.member m).op.deriveRowType (children.map PlanNode.rowType) =
        .ok (memo.group (memo.member m).group).rowType := by
  obtain ⟨hfits, -⟩ := h.member m hm
  obtain ⟨hrowTypes, -⟩ := inputs_of_extracts hfits.length_inputs
    (hchildren.imp fun slot n hn => ⟨hn.rowType, hn.convention⟩)
  have hderived := hfits.rowType
  rw [← hrowTypes] at hderived
  refine ⟨?_, hderived⟩
  rw [← Operator.deriveRowType_length hderived, List.length_map]

/-- A node of a winner over what was extracted for its inputs is well formed. -/
theorem isWellFormed_node {registry : Registry ν} (h : IsSturdy registry memo)
    (hordered : IsOrdered memo) {g : GroupId} {c : Convention} {w : Winner ν}
    (hw : memo.winner g c = some w) (hlisted : w.member ∈ (memo.group g).members)
    (hphysical : (memo.member w.member).isLogical = false) {children : List (PlanNode ν)}
    (hchildren : List.Forall₂ (fun slot n => IsExtract registry memo slot.1 slot.2 n)
      (memo.member w.member).slots children) (rows : ν) :
    (PlanNode.node (memo.member w.member).id (memo.member w.member).op
      (memo.member w.member).convention (memo.group g).rowType w.cost rows
        children).IsWellFormed registry := by
  obtain ⟨-, hlt, hgroup⟩ := h.settled.mem_group_iff.mp hlisted
  obtain ⟨harity, hderived⟩ := deriveRowType_of_extracts h.settled hlt hchildren
  rw [hgroup, rowType_congr (h.settled.led.leader_leader g)] at hderived
  constructor
  · intro hlogical
    unfold Member.isLogical at hphysical
    rw [show (memo.member w.member).convention = .logical from hlogical] at hphysical
    cases hphysical
  · exact harity
  · exact hderived
  · intro child hchild
    obtain ⟨slot, hslot, hextract⟩ := exists_mem_of_forall₂ hchildren hchild
    obtain ⟨v, hv, hle⟩ := (hordered g c w hw).2 slot hslot
    have hcost := hextract.cost
    rw [hv, Option.map_some, Option.some.injEq] at hcost
    rwa [hcost] at hle
  · -- the only input of a converter is in the convention that it is asked for
    intro source hop
    change (memo.member w.member).op = .converter source at hop
    obtain ⟨hinputs, hne, hconvertlet⟩ := h.bridged _ hlt source hop hphysical
    rw [hop] at harity hderived
    obtain ⟨child, rfl⟩ := List.length_eq_one_iff.mp harity
    refine ⟨child, rfl, ?_, hne, Except.ok.inj hderived, hconvertlet⟩
    obtain ⟨slot, hslot, hextract⟩ := exists_mem_of_forall₂ hchildren (List.mem_singleton_self child)
    have hinput := (List.of_mem_zip hslot).2
    rw [hinputs] at hinput
    exact hextract.convention.trans (List.mem_singleton.mp hinput)

/-- A plan that is extracted for a group in a convention is well formed. -/
theorem isExtract_extractBelow {registry : Registry ν} (h : IsSturdy registry memo)
    (hoffered : memo.IsOffered) (hordered : IsOrdered memo) {fuel : Nat}
    {above : List (GroupId × Convention)} {g : GroupId} {c : Convention} {n : PlanNode ν}
    (hn : memo.extractBelow fuel above g c = .ok n) : IsExtract registry memo g c n := by
  induction fuel generalizing above g c n with
  | zero => cases hn
  | succ fuel ih =>
      obtain ⟨w, children, hw, hchildren, rfl⟩ := exists_of_extractBelow hn
      obtain ⟨hlisted, hphysical, hconvention⟩ := hoffered _ c w hw
      have hinputs := hchildren.imp fun slot n hn => ih hn
      have hself := isWellFormed_node h hordered hw hlisted hphysical hinputs
        (memo.plannedRows (memo.leader g))
      have hleader := h.settled.led.leader_leader g
      refine ⟨hconvention, rowType_congr hleader, ?_, ?_⟩
      · rw [← winner_congr hleader, hw]
        rfl
      · intro k hk
        rcases List.mem_cons.mp hk with rfl | hk
        · exact hself
        · rw [PlanNode.nodesOfList_eq] at hk
          obtain ⟨child, hchild, hk⟩ := List.mem_flatMap.mp hk
          obtain ⟨slot, -, hextract⟩ := exists_mem_of_forall₂ hinputs hchild
          exact hextract.nodes k hk

/-! ## Returned plans -/

/-- The memos that come of adding logical members over groups which exist, whether these are
accepted or not. -/
inductive LogicallyBuilt : Memo ν → Prop
  | empty : LogicallyBuilt .empty
  | addLogical {memo : Memo ν} (h : LogicallyBuilt memo) (op : Operator) {children : List GroupId}
      (hlt : ∀ g ∈ children, g < memo.groups.size) :
      LogicallyBuilt ((Memo.addLogical op children).run.run memo).2

omit [Quantity ν] in
/-- There are no converters yet in such a memo, other than logical ones. -/
theorem LogicallyBuilt.isSturdy (registry : Registry ν) (h : LogicallyBuilt memo) :
    IsSturdy registry memo := by
  induction h with
  | empty => exact ⟨settled_empty, fun m hm => absurd hm (Nat.not_lt_zero m)⟩
  | addLogical _ op hlt ih => exact (isKeptByCalls_isSturdy registry).addLogical op ih hlt

/-- What a search with regular rules returns for a sturdy memo was extracted for its goal from
winners that it found there, and is well formed. -/
theorem isExtract_of_returns_optimize [ComparableQuantity ν]
    (hrules : ∀ rule ∈ planner.registry.rules, rule.IsRegular planner.catalog) {s t : Search ν}
    (hs : IsSturdy planner.registry s.memo) {root : GroupId} {goal : Goal ν} {plan : Plan ν}
    (h : Returns (optimize planner root goal) s plan t) :
    IsExtract planner.registry t.memo root goal.convention plan.root := by
  have hkept := isKept_isSturdy hrules
  obtain ⟨u, hreached, hfind, hextract⟩ := returns_optimize h
  have hu := hreached _ hkept hs
  exact isExtract_extractBelow (hkept.findWinners.of_returns hfind hu)
    (isOffered_findWinners hu.settled.led hfind) (isOrdered_findWinners hu.settled.led hfind)
    hextract

/-- The plan that a search returns is in the convention of its goal, and all its nodes are well
formed: for a memo of logical members, any rules that name groups which exist and propose no
converters, any convertlets and costs, any budget, and any ceiling. -/
theorem isWellFormed_of_returns_optimize {planner : Planner Float} {memo : Memo Float}
    (hrules : ∀ rule ∈ planner.registry.rules, rule.IsRegular planner.catalog)
    (hmemo : LogicallyBuilt memo) (root : GroupId) (goal : Goal Float) {plan : Plan Float}
    {t : Search Float} (h : Returns (optimize planner root goal) { memo := memo } plan t) :
    plan.root.convention = goal.convention ∧
      ∀ n ∈ plan.root.nodes, n.IsWellFormed planner.registry := by
  have hextract := isExtract_of_returns_optimize hrules (hmemo.isSturdy planner.registry) h
  exact ⟨hextract.convention, hextract.nodes⟩

/-- The rows of a foreign table in whose only column there is a one. -/
def foreignOnes : Memo Float :=
  let t : RowType := ⟨[⟨"a", .int64, true⟩]⟩
  let isOne : Expr := .binary .eq (.col "a" 0) (.literal (.int 1))
  let scanned := ((Memo.addLogical (.scan ⟨"s", "t"⟩ t) []).run.run (.empty : Memo Float)).2
  ((Memo.addLogical (.filter isOne) [0]).run.run scanned).2

theorem logicallyBuilt_foreignOnes : LogicallyBuilt foreignOnes := by
  refine (LogicallyBuilt.empty.addLogical _ ?_).addLogical _ ?_
  all_goals decide +kernel

/-- A planner with the standard rules that knows the table as a foreign one. -/
def standardPlanner : Planner Float where
  registry := .builtin
  costs := RowWork.standard.model
  catalog := { federated := ["s.t"] }
  budget := {}

/-- In the example the rows are fetched, pulled from there and looped over in generated code, by
two converters. -/
theorem isWellFormed_of_returns_optimize_foreignOnes :
    ∃ plan t, Returns (optimize standardPlanner 1 ⟨.compiled, none⟩) { memo := foreignOnes } plan t ∧
      plan.root.nodes.map (fun n => (n.op.kind, n.convention)) = [(.filter, .compiled),
        (.converter, .compiled), (.converter, .iterator), (.scan, .federated)] ∧
      plan.root.convention = .compiled ∧
        ∀ n ∈ plan.root.nodes, n.IsWellFormed standardPlanner.registry := by
  have hnodes : ((optimize standardPlanner 1 ⟨.compiled, none⟩).run.run
      { memo := foreignOnes }).1.toOption.map (fun plan => plan.root.nodes.map fun n =>
        (n.op.kind, n.convention)) = some [(.filter, .compiled), (.converter, .compiled),
          (.converter, .iterator), (.scan, .federated)] := by
    decide +kernel
  obtain ⟨plan, hplan, hread⟩ := Option.map_eq_some_iff.mp hnodes
  have hreturned := returns_of_toOption hplan
  obtain ⟨hconvention, hwellFormed⟩ := isWellFormed_of_returns_optimize
    (fun rule hrule => Rule.isRegular_of_mem_standard hrule) logicallyBuilt_foreignOnes 1
    ⟨.compiled, none⟩ hreturned
  exact ⟨plan, _, hreturned, hread, hconvention, hwellFormed⟩

end Search

end QueryPlanner
