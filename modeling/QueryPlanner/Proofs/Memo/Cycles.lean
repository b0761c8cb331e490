/-
# Cycles of winners

A plan is read off the winners: that of a group over those of the winner's inputs. The
winners on the way form a path without repetition, so the number of winners bounds its
length, and nothing but a cycle can keep the plan from being found.

* `Reads` : the graph of winners;
* `acc_of_extractBelow` : where a plan is extracted, no cycle can be reached;
* `extract_cases` : otherwise the error names a winner on such a cycle.
-/
import Mathlib.Data.List.Nodup
import Mathlib.Data.List.Perm.Subperm
import Mathlib.Logic.Relation
import QueryPlanner.Memo.Extraction
import QueryPlanner.Proofs.Memo.Frame
import QueryPlanner.Proofs.Search.Derivation

namespace QueryPlanner

open Relation

namespace Memo

variable {ν : Type} {memo : Memo ν}

/-! ## The graph of winners -/

/-- The winner of a group in a convention reads another group in a convention. -/
def Reads (memo : Memo ν) (p q : GroupId × Convention) : Prop :=
  ∃ w, memo.winner p.1 p.2 = some w ∧
    ∃ slot ∈ (memo.member w.member).slots, q = (memo.leader slot.1, slot.2)

/-- From the winner of a group in a convention one comes to winners that read themselves. -/
def ReachesCycle (memo : Memo ν) (p : GroupId × Convention) : Prop :=
  ∃ q, ReflTransGen memo.Reads p q ∧ TransGen memo.Reads q q

/-- Whatever a winner reads has a winner, too. -/
def IsClosed (memo : Memo ν) : Prop :=
  ∀ g c w, memo.winner g c = some w →
    ∀ slot ∈ (memo.member w.member).slots, (memo.winner slot.1 slot.2).isSome

/-! ## Counting winners -/

/-- The groups and conventions that have a winner. -/
def winnerKeys (memo : Memo ν) : List (GroupId × Convention) :=
  memo.groups.toList.zipIdx.flatMap fun p => p.1.winners.map fun q => (p.2, q.1)

theorem length_winnerKeys (memo : Memo ν) : memo.winnerKeys.length = memo.winnerCount := by
  unfold winnerKeys winnerCount
  rw [List.length_flatMap, List.length_flatMap]
  simp only [List.length_map]
  calc (memo.groups.toList.zipIdx.map fun p => p.1.winners.length).sum
      = ((memo.groups.toList.zipIdx.map Prod.fst).map fun g => g.winners.length).sum := by
        rw [List.map_map]
        rfl
    _ = (memo.groups.toList.map fun g => g.winners.length).sum := by
        rw [List.zipIdx_map_fst]

/-- A leader with a winner is counted. -/
theorem mem_winnerKeys {g : GroupId} {c : Convention} {w : Winner ν} (hg : memo.leader g = g)
    (hw : memo.winner g c = some w) : (g, c) ∈ memo.winnerKeys := by
  unfold winner group at hw
  rw [hg] at hw
  rcases hx : memo.groups[g]? with _ | x
  · rw [hx] at hw
    cases hw
  · rw [hx] at hw
    refine List.mem_flatMap.mpr ⟨(x, g), ?_, ?_⟩
    · rw [List.mem_zipIdx_iff_getElem?, Array.getElem?_toList]
      exact hx
    · exact List.mem_map.mpr ⟨(c, w), Dictionary.mem_of_get?_eq_some hw, rfl⟩

/-! ## Extraction -/

variable [Quantity ν]

/-- Extraction goes on below a winner that is not above itself, and makes one node of what it
finds there. -/
theorem extractBelow_of_winner (fuel : Nat) {above : List (GroupId × Convention)} {g : GroupId}
    {c : Convention} {w : Winner ν} (ha : (memo.leader g, c) ∉ above)
    (hw : memo.winner (memo.leader g) c = some w) :
    ∃ node : List (PlanNode ν) → PlanNode ν, memo.extractBelow (fuel + 1) above g c =
      ((memo.member w.member).slots.mapM fun slot =>
        memo.extractBelow fuel ((memo.leader g, c) :: above) slot.1 slot.2).map node := by
  refine ⟨fun children => .node (memo.member w.member).id (memo.member w.member).op
    (memo.member w.member).convention (memo.group (memo.leader g)).rowType w.cost
    ((memo.group (memo.leader g)).statistics.elim (Quantity.ofNat 0) Statistics.rows) children,
      ?_⟩
  have hc : above.contains (memo.leader g, c) = false :=
    Bool.eq_false_iff.mpr fun h => ha (List.contains_iff_mem.mp h)
  conv_lhs => unfold extractBelow
  dsimp only
  rw [hc, hw, if_neg Bool.false_ne_true]
  unfold Member.slots
  dsimp only
  generalize ((memo.member w.member).children.zip (memo.member w.member).inputs).mapM
    (fun slot => memo.extractBelow fuel ((memo.leader g, c) :: above) slot.1 slot.2) = children
  cases children with
  | error e => rfl
  | ok children =>
      rcases (memo.group (memo.leader g)).statistics with _ | x
      · rfl
      · rfl

/-- Where all of a plan could be extracted, the graph of winners is well-founded. -/
theorem acc_of_extractBelow {fuel : Nat} {above : List (GroupId × Convention)} {g : GroupId}
    {c : Convention} {plan : PlanNode ν} (h : memo.extractBelow fuel above g c = .ok plan) :
    Acc (fun q p => memo.Reads p q) (memo.leader g, c) := by
  induction fuel generalizing above g c plan with
  | zero => cases h
  | succ fuel ih =>
      refine Acc.intro _ fun q hq => ?_
      obtain ⟨w, hw, slot, hslot, rfl⟩ := hq
      by_cases ha : (memo.leader g, c) ∈ above
      · unfold extractBelow at h
        dsimp only at h
        rw [List.contains_iff_mem.mpr ha] at h
        cases h
      -- whatever the winner reads was extracted below it
      · obtain ⟨node, hnode⟩ := extractBelow_of_winner fuel ha hw
        rw [hnode] at h
        rcases hm : (memo.member w.member).slots.mapM fun slot =>
          memo.extractBelow fuel ((memo.leader g, c) :: above) slot.1 slot.2 with e | children
        · rw [hm] at h
          cases h
        · obtain ⟨child, hchild⟩ := exists_of_mapM_eq_ok hm hslot
          exact ih hchild

/-- Below winners that all lead here, extraction either gives a plan or finds a cycle. The
winners above are different ones, so there are no more of them than there are winners. -/
theorem extractBelow_cases (hled : memo.Led) (hclosed : memo.IsClosed) (fuel : Nat)
    (above : List (GroupId × Convention)) (g : GroupId) (c : Convention)
    (hfuel : memo.winnerCount < fuel + above.length) (hnodup : above.Nodup)
    (hkeys : ∀ p ∈ above, p ∈ memo.winnerKeys)
    (hlead : ∀ p ∈ above, TransGen memo.Reads p (memo.leader g, c))
    (hw : (memo.winner g c).isSome) :
    (∃ plan, memo.extractBelow fuel above g c = .ok plan) ∨
      ∃ q : GroupId × Convention, memo.extractBelow fuel above g c = .error (.cyclicPlan q.1 q.2) ∧
        ReflTransGen memo.Reads (memo.leader g, c) q ∧ TransGen memo.Reads q q := by
  induction fuel generalizing above g c with
  | zero =>
      -- without fuel the path would have more winners than there are
      have hle : above.length ≤ memo.winnerKeys.length := (hnodup.subperm hkeys).length_le
      rw [length_winnerKeys] at hle
      omega
  | succ fuel ih =>
      by_cases ha : (memo.leader g, c) ∈ above
      · refine Or.inr ⟨(memo.leader g, c), ?_, ReflTransGen.refl, hlead _ ha⟩
        unfold extractBelow
        dsimp only
        rw [List.contains_iff_mem.mpr ha]
        rfl
      · have hself := hled.leader_leader g
        rw [← winner_congr hself] at hw
        obtain ⟨w, hw⟩ := Option.isSome_iff_exists.mp hw
        obtain ⟨node, hnode⟩ := extractBelow_of_winner fuel ha hw
        rw [hnode]
        rcases hm : (memo.member w.member).slots.mapM fun slot =>
          memo.extractBelow fuel ((memo.leader g, c) :: above) slot.1 slot.2 with e | children
        -- the first input that fails does so at a cycle that can be reached from here
        · obtain ⟨slot, hslot, herror⟩ := mapM_eq_error hm
          have hreads : memo.Reads (memo.leader g, c) (memo.leader slot.1, slot.2) :=
            ⟨w, hw, slot, hslot, rfl⟩
          have hbelow := ih ((memo.leader g, c) :: above) slot.1 slot.2
            (by rw [List.length_cons]; omega) (List.nodup_cons.mpr ⟨ha, hnodup⟩)
            (List.forall_mem_cons.mpr ⟨mem_winnerKeys hself hw, hkeys⟩)
            (List.forall_mem_cons.mpr ⟨.single hreads, fun p hp => (hlead p hp).tail hreads⟩)
            (hclosed _ c w hw slot hslot)
          rcases hbelow with ⟨plan, hplan⟩ | ⟨q, hq, hreach, hcycle⟩
          · rw [hplan] at herror
            cases herror
          · rw [hq] at herror
            cases herror
            rw [hm]
            exact Or.inr ⟨q, rfl, hreach.head hreads, hcycle⟩
        · rw [hm]
          exact Or.inl ⟨node children, rfl⟩

omit [Quantity ν] in
/-- From a place in the well-founded part no cycle can be reached. -/
theorem not_reachesCycle_of_acc {p : GroupId × Convention}
    (h : Acc (fun q p => memo.Reads p q) p) : ¬ memo.ReachesCycle p := by
  rintro ⟨q, hreach, hcycle⟩
  have hq : Acc (fun q p => memo.Reads p q) q := by
    clear hcycle
    induction hreach with
    | refl => exact h
    | tail _ hstep ih => exact ih.inv hstep
  have htrans := hq.transGen
  have hback : TransGen (fun q p => memo.Reads p q) q q := transGen_swap.mp hcycle
  clear hcycle hq hreach
  induction htrans with
  | intro q _ ih => exact ih q hback hback

/-- Where the root has a winner and winners read winners, extraction gives a plan just when no
cycle can be reached; otherwise it fails at a winner on such a cycle. -/
theorem extract_cases (hled : memo.Led) (hclosed : memo.IsClosed) {g : GroupId} {c : Convention}
    (hw : (memo.winner g c).isSome) :
    (¬ memo.ReachesCycle (memo.leader g, c) ∧ ∃ plan, memo.extract g c = .ok plan) ∨
      ∃ q : GroupId × Convention, memo.extract g c = .error (.cyclicPlan q.1 q.2) ∧
        ReflTransGen memo.Reads (memo.leader g, c) q ∧ TransGen memo.Reads q q := by
  have hcases := extractBelow_cases hled hclosed (memo.winnerCount + 1) [] g c
    (by rw [List.length_nil]; omega) List.nodup_nil (fun _ h => absurd h List.not_mem_nil)
    (fun _ h => absurd h List.not_mem_nil) hw
  rcases hcases with ⟨plan, hplan⟩ | hcycle
  · exact Or.inl ⟨not_reachesCycle_of_acc (acc_of_extractBelow hplan), plan, hplan⟩
  · exact Or.inr hcycle

end Memo

end QueryPlanner
