/-
# Plans that are read off a memo with a meaning

A winner is a member of its group in the convention it has won in. So every node of an
extracted plan is in the convention that its consumer requires of it, denotes the bag that its
member stands for over those of its inputs, and is an operator that there is code for.

* `PlanNode.IsSound` : a plan each node of which denotes the bag that its number stands for;
* `isOffered_findWinners` : winners are members of their groups in their conventions;
* `isSound_extract` : extracted plans are sound;
* `eq_of_id_eq` : nodes of one number in an extracted plan are the same.
-/
import QueryPlanner.Memo.Extraction
import QueryPlanner.Proofs.Memo.Consistency
import QueryPlanner.Proofs.Memo.Meaning
import QueryPlanner.Proofs.Search.Pricing

namespace QueryPlanner

variable {ν : Type}

/-- A plan over nodes that stand for bags in conventions: each node denotes the bag it stands
for over those of its inputs, and is implemented in its convention over theirs. -/
inductive PlanNode.IsSound (source : RowSource) (given : Nat → Bag × Convention) :
    PlanNode ν → Prop
  | node {id : Nat} {op : Operator} {c : Convention} {t : RowType} {cost rows : ν}
      {children : List (PlanNode ν)} (convention : c = (given id).2)
      (rowType : t = (given id).1.rowType)
      (denotes : Operator.Denotes source op (children.map fun n => (given n.id).1) (given id).1)
      (implemented : IsImplemented op c (children.map PlanNode.convention))
      (inputs : ∀ n ∈ children, IsSound source given n) :
      IsSound source given (.node id op c t cost rows children)

theorem PlanNode.IsSound.convention_eq {source : RowSource} {given : Nat → Bag × Convention}
    {n : PlanNode ν} (h : n.IsSound source given) : n.convention = (given n.id).2 := by
  cases h with
  | node convention => exact convention

theorem PlanNode.IsSound.rowType_eq {source : RowSource} {given : Nat → Bag × Convention}
    {n : PlanNode ν} (h : n.IsSound source given) : n.rowType = (given n.id).1.rowType := by
  cases h with
  | node _ rowType => exact rowType

namespace Memo

variable {source : RowSource} {den : GroupId → Bag} {memo : Memo ν}

/-- The bag and the convention that a member stands for. -/
def given (memo : Memo ν) (den : GroupId → Bag) (m : MemberId) : Bag × Convention :=
  (den (memo.member m).group, (memo.member m).convention)

/-- Every winner is a physical member of its group, in the convention it has won in. -/
def IsOffered (memo : Memo ν) : Prop :=
  ∀ g c w, memo.winner g c = some w → w.member ∈ (memo.group g).members ∧
    (memo.member w.member).isLogical = false ∧ (memo.member w.member).convention = c

variable [Quantity ν]

/-- The number of rows that a plan for a group notes down. -/
def plannedRows (memo : Memo ν) (g : GroupId) : ν :=
  match (memo.group g).statistics with
  | some s => s.rows
  | none => Quantity.ofNat 0

/-- What is extracted below a winner is a node of its operator, over what is extracted for its
inputs. -/
theorem exists_of_extractBelow {fuel : Nat} {above : List (GroupId × Convention)} {g : GroupId}
    {c : Convention} {n : PlanNode ν} (hn : memo.extractBelow (fuel + 1) above g c = .ok n) :
    ∃ w children, memo.winner (memo.leader g) c = some w ∧
      List.Forall₂ (fun slot n =>
        memo.extractBelow fuel ((memo.leader g, c) :: above) slot.1 slot.2 = .ok n)
          (memo.member w.member).slots children ∧
      n = .node (memo.member w.member).id (memo.member w.member).op
        (memo.member w.member).convention (memo.group (memo.leader g)).rowType w.cost
          (memo.plannedRows (memo.leader g)) children := by
  unfold extractBelow at hn
  dsimp only at hn
  split at hn
  · cases hn
  · rcases hw : memo.winner (memo.leader g) c with _ | w
    · rw [hw] at hn
      cases hn
    · rw [hw] at hn
      dsimp only at hn
      rcases hchildren : ((memo.member w.member).children.zip
        (memo.member w.member).inputs).mapM (fun slot =>
          memo.extractBelow fuel ((memo.leader g, c) :: above) slot.1 slot.2) with e | children
      · rw [hchildren] at hn
        cases hn
      · rw [hchildren] at hn
        cases hn
        exact ⟨w, children, rfl, forall₂_of_mapM_eq_ok hchildren, rfl⟩

omit [Quantity ν] in
/-- Plans that stand for the inputs of a member, each in the convention required of it, stand for
the bags of these inputs, and are in these conventions. -/
theorem inputs_of_given {m : Member} (hlength : m.children.length = m.inputs.length)
    {children : List (PlanNode ν)}
    (h : List.Forall₂ (fun slot n => n.IsSound source (memo.given den) ∧
      memo.given den n.id = (den slot.1, slot.2)) m.slots children) :
    (∀ n ∈ children, n.IsSound source (memo.given den)) ∧
      (children.map fun n => (memo.given den n.id).1) = m.children.map den ∧
      children.map PlanNode.convention = m.inputs := by
  obtain ⟨hsound, hslots⟩ := (List.forall₂_and_left _ _).mp h.flip
  have hgiven : (children.map fun n => memo.given den n.id) =
      m.slots.map fun slot => (den slot.1, slot.2) := by
    rw [← List.forall₂_eq_eq_eq, List.forall₂_map_left_iff, List.forall₂_map_right_iff]
    exact hslots
  refine ⟨hsound, ?_, ?_⟩
  · calc (children.map fun n => (memo.given den n.id).1)
        = (children.map fun n => memo.given den n.id).map Prod.fst := by rw [List.map_map]; rfl
      _ = (m.slots.map Prod.fst).map den := by rw [hgiven, List.map_map, List.map_map]; rfl
      _ = m.children.map den := by rw [Member.slots, List.map_fst_zip (Nat.le_of_eq hlength)]
  · calc children.map PlanNode.convention
        = (children.map fun n => memo.given den n.id).map Prod.snd := by
          rw [List.map_map]
          exact List.map_congr_left fun n hn => (hsound n hn).convention_eq
      _ = m.slots.map Prod.snd := by rw [hgiven, List.map_map]; rfl
      _ = m.inputs := by rw [Member.slots, List.map_snd_zip (Nat.le_of_eq hlength.symm)]

omit [Quantity ν] in
/-- A node of a physical member over plans that stand for its inputs is sound, and stands for the
bag of the group in the convention of the member. -/
theorem isSound_node (h : memo.Means source den) {g : GroupId} {m : MemberId}
    (hlisted : m ∈ (memo.group g).members) (hphysical : (memo.member m).isLogical = false)
    {children : List (PlanNode ν)}
    (hchildren : List.Forall₂ (fun slot n => n.IsSound source (memo.given den) ∧
      memo.given den n.id = (den slot.1, slot.2)) (memo.member m).slots children) (cost rows : ν) :
    (PlanNode.node (memo.member m).id (memo.member m).op (memo.member m).convention
      (memo.group g).rowType cost rows children).IsSound source (memo.given den) ∧
        memo.given den (memo.member m).id = (den g, (memo.member m).convention) := by
  obtain ⟨hlt, hgroup⟩ := h.listed g m hlisted
  obtain ⟨hmember, hid⟩ := h.member m hlt
  have himplemented := hmember.implemented hphysical
  have hlength : (memo.member m).children.length = (memo.member m).inputs.length := by
    rw [himplemented.length_inputs, ← hmember.denotes.length_inputs, List.length_map]
  obtain ⟨hsound, hbags, hconventions⟩ := inputs_of_given hlength hchildren
  -- a group that lists a member exists
  have hg : g < memo.groups.size := by
    by_contra hge
    rw [members_group_of_le (h.led.le_leader (Nat.le_of_not_lt hge))] at hlisted
    exact List.not_mem_nil hlisted
  have hself : memo.given den (memo.member m).id = (den g, (memo.member m).convention) := by
    rw [hid]
    exact Prod.ext hgroup rfl
  refine ⟨.node ?_ ?_ ?_ ?_ hsound, hself⟩
  · rw [hself]
  · rw [hself, h.rowType g hg]
  · rw [hself, hbags, ← hgroup]
    exact hmember.denotes
  · rw [hconventions]
    exact himplemented

/-- A plan that is extracted for a group in a convention is sound, and stands for the bag of the
group there. -/
theorem isSound_extractBelow (h : memo.Means source den) (hoffered : memo.IsOffered) {fuel : Nat}
    {above : List (GroupId × Convention)} {g : GroupId} {c : Convention} {n : PlanNode ν}
    (hn : memo.extractBelow fuel above g c = .ok n) :
    n.IsSound source (memo.given den) ∧ memo.given den n.id = (den g, c) := by
  induction fuel generalizing above g c n with
  | zero => cases hn
  | succ fuel ih =>
      obtain ⟨w, children, hw, hchildren, rfl⟩ := exists_of_extractBelow hn
      obtain ⟨hlisted, hphysical, hconvention⟩ := hoffered _ c w hw
      have hinputs := hchildren.imp fun slot n hn => ih hn
      obtain ⟨hsound, hself⟩ := isSound_node h hlisted hphysical hinputs w.cost
        (memo.plannedRows (memo.leader g))
      refine ⟨hsound, ?_⟩
      rw [h.leader, hconvention] at hself
      exact hself

/-- Extracted plans are sound, and stand for the bag of the group that they are asked for. -/
theorem isSound_extract (h : memo.Means source den) (hoffered : memo.IsOffered) {g : GroupId}
    {c : Convention} {n : PlanNode ν} (hn : memo.extract g c = .ok n) :
    n.IsSound source (memo.given den) ∧ memo.given den n.id = (den g, c) :=
  isSound_extractBelow h hoffered hn

/-! ## Nodes of one number -/

/-- One plan is extracted for a group in a convention, whatever is above it. -/
theorem extractBelow_unique {fuel fuel' : Nat} {above above' : List (GroupId × Convention)}
    {g g' : GroupId} {c : Convention} {n n' : PlanNode ν} (hleader : memo.leader g = memo.leader g')
    (hn : memo.extractBelow fuel above g c = .ok n)
    (hn' : memo.extractBelow fuel' above' g' c = .ok n') : n = n' := by
  induction fuel generalizing fuel' above above' g g' c n n' with
  | zero => cases hn
  | succ fuel ih =>
      cases fuel' with
      | zero => cases hn'
      | succ fuel' =>
          obtain ⟨w, children, hw, hchildren, rfl⟩ := exists_of_extractBelow hn
          obtain ⟨w', children', hw', hchildren', rfl⟩ := exists_of_extractBelow hn'
          rw [← hleader, hw] at hw'
          obtain rfl := Option.some.inj hw'
          obtain rfl : children = children' := by
            refine eq_of_forall₂ (fun slot _ _ h h' => ?_) hchildren hchildren'
            exact ih rfl h h'
          rw [hleader]

/-- Every node of an extracted plan was extracted for the group of its member, in the convention of
this. -/
theorem exists_extractBelow_of_mem_nodes (h : memo.Consistent) (hoffered : memo.IsOffered)
    {fuel : Nat} {above : List (GroupId × Convention)} {g : GroupId} {c : Convention} {n : PlanNode ν}
    (hn : memo.extractBelow fuel above g c = .ok n) : ∀ k ∈ n.nodes, ∃ fuel above g,
      memo.extractBelow fuel above g (memo.member k.id).convention = .ok k ∧
        memo.leader g = memo.leader (memo.member k.id).group := by
  induction fuel generalizing above g c n with
  | zero => cases hn
  | succ fuel ih =>
      obtain ⟨w, children, hw, hchildren, rfl⟩ := exists_of_extractBelow hn
      obtain ⟨hlisted, -, hconvention⟩ := hoffered _ c w hw
      obtain ⟨-, hm, hgroup⟩ := h.mem_group_iff.mp hlisted
      intro k hk
      rw [PlanNode.nodes, PlanNode.nodesOfList_eq, List.mem_cons, List.mem_flatMap] at hk
      rcases hk with rfl | ⟨child, hchild, hk⟩
      · have hself : memo.member (memo.member w.member).id = memo.member w.member := by
          rw [(h.member w.member hm).2]
        refine ⟨fuel + 1, above, g, ?_, ?_⟩
        · rw [PlanNode.id, hself, hconvention]
          rwa [hconvention] at hn
        · rw [PlanNode.id, hself, hgroup, h.led.leader_leader, h.led.leader_leader]
      · obtain ⟨slot, -, hslot⟩ := exists_mem_of_forall₂ hchildren hchild
        exact ih hslot k hk

/-- Nodes of one number in an extracted plan are the same. -/
theorem eq_of_id_eq (h : memo.Consistent) (hoffered : memo.IsOffered) {g : GroupId}
    {c : Convention} {n : PlanNode ν} (hn : memo.extract g c = .ok n) :
    ∀ k ∈ n.nodes, ∀ k' ∈ n.nodes, k.id = k'.id → k = k' := by
  intro k hk k' hk' heq
  obtain ⟨fuel, above, g, hextract, hleader⟩ :=
    exists_extractBelow_of_mem_nodes h hoffered hn k hk
  obtain ⟨fuel', above', g', hextract', hleader'⟩ :=
    exists_extractBelow_of_mem_nodes h hoffered hn k' hk'
  rw [← heq] at hextract' hleader'
  exact extractBelow_unique (hleader.trans hleader'.symm) hextract hextract'

end Memo

namespace Search

variable [Quantity ν] {planner : Planner ν}

/-- A member that is crowned is a member of the group, in its own convention. -/
theorem isKeptByCrowning_isOffered : IsKeptByCrowning planner Memo.IsOffered := by
  intro memo g m x costs hg hm hphysical _ _ _ hoffered other c w hw
  have hsame := crown_sameUpTo memo g (memo.member m).convention ⟨m, x⟩
  rw [winner_crown hg] at hw
  rw [hsame.members_group, hsame.member]
  split at hw
  · next heq =>
      cases hw
      rw [Memo.members_congr heq.1]
      exact ⟨hm, hphysical, heq.2⟩
  · exact hoffered other c w hw

/-- Winners that were found are members of their groups in their conventions. -/
theorem isOffered_findWinners {s t : Search ν} (hled : s.memo.Led)
    (h : Returns (findWinners planner) s () t) : t.memo.IsOffered :=
  (returns_findWinners hled h isKeptByCrowning_isOffered fun _ _ hnone g c w hw => by
    rw [hnone] at hw
    cases hw).1

end Search

end QueryPlanner
