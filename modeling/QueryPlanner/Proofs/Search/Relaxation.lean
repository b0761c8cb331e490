/-
# Relaxation

Winners are found by passes over all members, each of which may replace a winner that
later ones were costed with. What makes this right is an invariant: every winner is backed
by a member that costs no more over the winners as they are now, and its cost is that of
a derivation. Winners only ever become cheaper, so a member that was good enough once stays
so; and a pass in which nothing changes finds every member steady.

* `Settling` : the invariant;
* `Settling.crown` : a member that improves on a winner and takes its place keeps it;
* `findWinners_settled` : when winners were found, the invariant holds and all members are steady.
-/
import QueryPlanner.Proofs.Cost
import QueryPlanner.Proofs.Search.Pricing

namespace QueryPlanner

open Quantity

namespace Search

variable {ν : Type} [Quantity ν] {planner : Planner ν} {memo final : Memo ν}

/-- The price of a member does not depend on the winners. -/
theorem price_of_sameUpTo (h : Memo.SameUpTo Group.withoutWinners memo final) (m : Member)
    (costs : List ν) : price planner memo m costs = price planner final m costs := by
  have hin : inputStatistics memo m = inputStatistics final m := by
    unfold inputStatistics
    rw [h.statisticsOf]
    congr 1
    apply List.map_congr_left
    intro slot _
    exact h.statisticsOf slot.1
  unfold price
  rw [hin, h.rowType_group, h.statisticsOf]

/-! ## Winners that become cheaper -/

section Order

variable [LinearOrder ν] [OrderedQuantity ν]

/-- The price of a member is monotone in the costs of its inputs. -/
theorem price_mono (hmono : planner.costs.IsMonotone) (m : Member) {costs dearer : List ν}
    (h : List.Forall₂ (· ≤ ·) costs dearer) :
    price planner final m costs ≤ price planner final m dearer := by
  unfold price
  split
  · have hhead : costs.headD (ofNat 0) ≤ dearer.headD (ofNat 0) := by
      cases h with
      | nil => exact le_refl _
      | cons hxy _ => exact hxy
    split
    · exact OrderedQuantity.add_le_add_right hhead _
    · exact hhead
  · exact hmono _ _ _ _ _ h

omit [Quantity ν] [OrderedQuantity ν] in
/-- Where winners only became cheaper, so did the inputs of every member. -/
theorem inputCosts_descend {later : Memo ν}
    (hd : ∀ g c w, memo.winner g c = some w → ∃ w', later.winner g c = some w' ∧ w'.cost ≤ w.cost)
    {m : Member} {costs : List ν} (h : inputCosts memo m = some costs) :
    ∃ cheaper, inputCosts later m = some cheaper ∧ List.Forall₂ (· ≤ ·) cheaper costs := by
  rw [inputCosts_eq_some_iff] at h
  simp only [inputCosts_eq_some_iff]
  generalize m.slots = slots at h ⊢
  induction h with
  | nil => exact ⟨[], .nil, .nil⟩
  | @cons slot x _ _ hx _ ih =>
      obtain ⟨w, hw, rfl⟩ := hx
      obtain ⟨w', hw', hle⟩ := hd slot.1 slot.2 w hw
      obtain ⟨cheaper, hin, hcheaper⟩ := ih
      exact ⟨w'.cost :: cheaper, .cons ⟨w', hw', rfl⟩ hin, .cons hle hcheaper⟩

/-- What improves on a winner costs no more. -/
theorem le_of_improves {m : MemberId} {x : ν} {w : Winner ν}
    (h : improves m x (some w) = true) : x ≤ w.cost := by
  have hcases := lt_or_same_of_improves h
  rw [OrderedQuantity.lt_eq, OrderedQuantity.same_eq] at hcases
  rcases hcases with hlt | hsame
  · exact le_of_lt (of_decide_eq_true hlt)
  · exact le_of_eq (of_decide_eq_true hsame)

/-! ## The invariant -/

/-- A memo on the way to the memo `final`, in which all winners are settled: each is a
physical member there, which costs no more over the winners as they are now, and its cost
is that of a derivation. -/
structure Settling (planner : Planner ν) (final memo : Memo ν) : Prop where
  same : Memo.SameUpTo Group.withoutWinners memo final
  offered : ∀ g c w, memo.winner g c = some w → Offers planner final w.member g c
  backed : ∀ g c w, memo.winner g c = some w → ∃ costs,
    inputCosts memo (final.member w.member) = some costs ∧
      price planner final (final.member w.member) costs ≤ w.cost
  attained : ∀ g c w, memo.winner g c = some w → ∃ t : Derivation planner final g c,
    t.cost = w.cost

omit [OrderedQuantity ν] in
/-- Without winners there is nothing to settle. -/
theorem settling_of_no_winner (same : Memo.SameUpTo Group.withoutWinners memo final)
    (h : ∀ g c, memo.winner g c = none) : Settling planner final memo where
  same := same
  offered g c w hw := by
    rw [h] at hw
    cases hw
  backed g c w hw := by
    rw [h] at hw
    cases hw
  attained g c w hw := by
    rw [h] at hw
    cases hw

/-- Where a member improves on a winner, winners only become cheaper. -/
theorem exists_winner_le_crown {g : GroupId} {c : Convention} {m : MemberId} {x : ν}
    (hg : memo.leader g < memo.groups.size) (hi : improves m x (memo.winner g c) = true)
    {other : GroupId} {d : Convention} {w : Winner ν} (hw : memo.winner other d = some w) :
    ∃ w', (crown memo g c ⟨m, x⟩).winner other d = some w' ∧ w'.cost ≤ w.cost := by
  refine exists_winner_crown hg (P := (· ≤ w.cost)) (fun v hv hle => ?_) hw (le_refl _)
  rw [hv] at hi
  exact (le_of_improves hi).trans hle

/-- A member that improves on a winner takes its place, and everything stays settled. -/
theorem Settling.crown (h : Settling planner final memo) (hmono : planner.costs.IsMonotone)
    {g : GroupId} (hg : final.leader g < final.groups.size) {m : MemberId}
    (hm : m ∈ (final.group g).members) (hp : (final.member m).isLogical = false) {x : ν}
    {costs : List ν} (hx : costOf planner memo (final.member m) = some (x, costs))
    (hi : improves m x (memo.winner g (final.member m).convention) = true) :
    Settling planner final (crown memo g (final.member m).convention ⟨m, x⟩) := by
  obtain ⟨hconv, hcosts, hprice⟩ := costOf_eq_some_iff.mp hx
  rw [price_of_sameUpTo h.same] at hprice
  have hg' : memo.leader g < memo.groups.size := by
    rw [h.same.leader, h.same.size]
    exact hg
  have hwin := winner_crown hg' (final.member m).convention ⟨m, x⟩
  -- the new winner is a member of every group that it shows in
  have hoffers : ∀ other, memo.leader other = memo.leader g →
      Offers planner final m other (final.member m).convention := by
    intro other hl
    refine ⟨?_, hp, rfl, hconv⟩
    rw [h.same.leader, h.same.leader] at hl
    rw [Memo.members_congr hl]
    exact hm
  -- inputs only became cheaper, and prices follow them
  have hbacked : ∀ n y ys, inputCosts memo (final.member n) = some ys →
      price planner final (final.member n) ys ≤ y → ∃ zs,
        inputCosts (Search.crown memo g (final.member m).convention ⟨m, x⟩) (final.member n) =
          some zs ∧ price planner final (final.member n) zs ≤ y := by
    intro n y ys hys hy
    obtain ⟨zs, hzs, hle⟩ := inputCosts_descend (fun _ _ _ => exists_winner_le_crown hg' hi) hys
    exact ⟨zs, hzs, (price_mono hmono _ hle).trans hy⟩
  refine ⟨(crown_sameUpTo memo g _ _).trans h.same, ?_, ?_, ?_⟩
  · intro other c w hw
    rw [hwin] at hw
    split at hw
    · next heq =>
        obtain ⟨hl, rfl⟩ := heq
        cases hw
        exact hoffers other hl
    · exact h.offered other c w hw
  · intro other c w hw
    rw [hwin] at hw
    split at hw
    · cases hw
      exact hbacked m x costs hcosts (le_of_eq hprice)
    · obtain ⟨ys, hys, hy⟩ := h.backed other c w hw
      exact hbacked w.member w.cost ys hys hy
  · intro other c w hw
    rw [hwin] at hw
    split at hw
    · next heq =>
        obtain ⟨hl, rfl⟩ := heq
        cases hw
        have hin : List.Forall₂
            (fun slot y => ∃ t : Derivation planner final slot.1 slot.2, t.cost = y)
            (final.member m).slots costs := by
          refine (inputCosts_eq_some_iff.mp hcosts).imp fun slot y hy => ?_
          obtain ⟨v, hv, rfl⟩ := hy
          exact h.attained slot.1 slot.2 v hv
        obtain ⟨t, ht⟩ := (hoffers other hl).exists_derivation hin
        exact ⟨t, ht.trans hprice⟩
    · exact h.attained other c w hw

/-- When winners were found, they are settled and every member of a live group is steady. -/
theorem findWinners_settled (hmono : planner.costs.IsMonotone) {s t : Search ν}
    (hled : s.memo.Led) (h : Returns (findWinners planner) s () t) :
    Settling planner t.memo t.memo ∧ AreSteady planner t.memo t.memo.liveGroups := by
  refine returns_findWinners hled h (fun memo g m x costs hg hm hp hx _ hi hs => ?_) fun memo hsame
    hnone => settling_of_no_winner hsame hnone
  rw [hs.same.members_group] at hm
  rw [hs.same.leader, hs.same.size] at hg
  rw [hs.same.member] at hp hx hi ⊢
  exact hs.crown hmono hg hm hp hx hi

end Order

end Search

end QueryPlanner
