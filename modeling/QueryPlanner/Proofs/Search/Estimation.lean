/-
# Statistics are estimates

The statistics of a group are derived once and kept, while members and groups are still being added.
None of this makes another member stand first, so that what was noted is what would be estimated now. Only
a merge is different: the group that absorbs another one keeps its own statistics, and those that read
the other one keep what was estimated from it.

* `Estimates` : what the first members say of a group, whatever is noted on it;
* `Descends.isEstimated` : statistics that are derived are estimates;
* `Attained.isEstimated` : before any groups are merged, no others are noted;
* `IsEstimated.isCurrent` : then they would be derived again.
-/
import QueryPlanner.Proofs.Search.Repricing

namespace QueryPlanner

open Memo

namespace Search

variable {ν : Type} [Quantity ν] {catalog : Catalog ν} {planner : Planner ν} {memo other : Memo ν}
  {g : GroupId} {x y : Statistics ν} {gs : List GroupId} {xs ys : List (Statistics ν)}

/-! ## Estimates -/

mutual

/-- What the member that a group stands on is estimated at, from the estimates of the groups that it
reads. -/
inductive Estimates (catalog : Catalog ν) (memo : Memo ν) : GroupId → Statistics ν → Prop
  | estimate {g : GroupId} {m : MemberId} {inputs : List (Statistics ν)} (hm : memo.StandsOn g m)
      (hinputs : EstimatesAll catalog memo ((memo.member m).children.map memo.leader) inputs) :
      Estimates catalog memo g ((memo.member m).op.estimate catalog.statistics? inputs)

/-- The estimates of several groups. -/
inductive EstimatesAll (catalog : Catalog ν) (memo : Memo ν) :
    List GroupId → List (Statistics ν) → Prop
  | nil : EstimatesAll catalog memo [] []
  | cons {g : GroupId} {gs : List GroupId} {x : Statistics ν} {xs : List (Statistics ν)}
      (h : Estimates catalog memo g x) (hs : EstimatesAll catalog memo gs xs) :
      EstimatesAll catalog memo (g :: gs) (x :: xs)

end

mutual

/-- There is one estimate of a group at most. -/
theorem Estimates.unique : ∀ {g : GroupId} {x y : Statistics ν}, Estimates catalog memo g x →
    Estimates catalog memo g y → x = y
  | _, _, _, .estimate hm hinputs, .estimate hm' hinputs' => by
      obtain rfl := Option.some.inj (hm.first.symm.trans hm'.first)
      rw [hinputs.unique hinputs']

theorem EstimatesAll.unique : ∀ {gs : List GroupId} {xs ys : List (Statistics ν)},
    EstimatesAll catalog memo gs xs → EstimatesAll catalog memo gs ys → xs = ys
  | _, _, _, .nil, .nil => rfl
  | _, _, _, .cons h hs, .cons h' hs' => by rw [h.unique h', hs.unique hs']

end

mutual

/-- Estimates are the same wherever groups stand on the same members. -/
theorem Estimates.of_standsAs (hstands : memo.StandsAs other) :
    ∀ {g : GroupId} {x : Statistics ν}, Estimates catalog memo g x → Estimates catalog other g x
  | _, _, .estimate hm hinputs => by
      rw [← hstands.op _ _ hm]
      refine .estimate (hstands.stands _ _ hm) ?_
      rw [hstands.children _ _ hm]
      exact hinputs.of_standsAs hstands

theorem EstimatesAll.of_standsAs (hstands : memo.StandsAs other) :
    ∀ {gs : List GroupId} {xs : List (Statistics ν)}, EstimatesAll catalog memo gs xs →
      EstimatesAll catalog other gs xs
  | _, _, .nil => .nil
  | _, _, .cons h hs => .cons (h.of_standsAs hstands) (hs.of_standsAs hstands)

end

omit [Quantity ν] in
/-- Only groups that exist stand on members. -/
theorem lt_of_standsOn {m : MemberId} (h : memo.StandsOn (memo.leader g) m) (hled : memo.Led) :
    memo.leader g < memo.groups.size := by
  by_contra hge
  have hmem := h.mem
  rw [members_group_of_le (by rw [hled.leader_leader]; exact Nat.le_of_not_lt hge)] at hmem
  cases hmem

/-! ## What is noted -/

/-- The statistics that are noted are estimates. -/
def IsEstimated (catalog : Catalog ν) (memo : Memo ν) : Prop :=
  ∀ g x, (memo.group g).statistics = some x → Estimates catalog memo (memo.leader g) x

/-- They still are wherever groups stand on the same members, if no others are noted. -/
theorem IsEstimated.of_standsAs (h : IsEstimated catalog memo) (hstands : memo.StandsAs other)
    (hnoted : ∀ g x, (other.group g).statistics = some x → (memo.group g).statistics = some x) :
    IsEstimated catalog other := by
  intro g x hx
  rw [hstands.leader]
  exact (h g x (hnoted g x hx)).of_standsAs hstands

/-- Notes other than statistics make no difference. -/
theorem IsEstimated.of_sameUpTo (h : IsEstimated catalog memo) {note : Group ν → Group ν}
    (hsame : SameUpTo note other memo)
    (hnote : ∀ x, (note x).members = x.members ∧ (note x).statistics = x.statistics) :
    IsEstimated catalog other := by
  refine h.of_standsAs (standsAs_of_sameUpTo hsame fun x => (hnote x).1) fun g x hx => ?_
  rwa [← (hnote _).2, hsame.group, (hnote _).2] at hx

theorem isEstimated_reread (memo : Memo ν) : IsEstimated catalog (memo.reread : Memo ν) := by
  intro g x hx
  rw [group_reread] at hx
  cases hx

/-- Noting an estimate leaves estimates. -/
theorem isEstimated_setStatistics (h : IsEstimated catalog memo) (hled : memo.Led)
    (hx : Estimates catalog memo (memo.leader g) x) : IsEstimated catalog (setStatistics memo g x) := by
  have hstands : memo.StandsAs (setStatistics memo g x) :=
    standsAs_of_sameUpTo (setStatistics_sameUpTo memo g x) fun _ => rfl
  have hlt : memo.leader g < memo.groups.size := by
    obtain ⟨hm, -⟩ := hx
    exact lt_of_standsOn hm hled
  intro a y hy
  rw [leader_setStatistics]
  refine Estimates.of_standsAs hstands ?_
  unfold setStatistics at hy
  rw [group_modifyGroup hlt] at hy
  split at hy
  · next ha =>
      obtain rfl := Option.some.inj hy
      rwa [ha]
  · exact h a y hy

mutual

/-- Deriving the statistics of a group leaves estimates. -/
theorem Descends.isEstimated : ∀ {g : GroupId} {memo after : Memo ν}, Descends catalog g memo after →
    memo.Led → IsEstimated catalog memo →
      SameUpTo Group.withoutStatistics after memo ∧ IsEstimated catalog after
  | _, _, _, .known _, _, h => ⟨SameUpTo.refl _, h⟩
  | g, _, _, .estimated _ hm _ hinputs, hled, h => by
      obtain ⟨hsame, hbetween, hall⟩ := hinputs.isEstimated hled h
      have hstands := standsAs_of_sameUpTo hsame fun _ => rfl
      refine ⟨(setStatistics_sameUpTo _ g _).trans hsame,
        isEstimated_setStatistics hbetween (hsame.symm.led hled) ?_⟩
      rw [hsame.leader, ← hstands.op _ _ hm]
      refine .estimate (hstands.stands _ _ hm) ?_
      rw [hstands.children _ _ hm]
      exact hall

/-- So does deriving those of several groups, and what is read is estimated of them. -/
theorem DescendsAll.isEstimated : ∀ {bound : GroupId} {gs : List GroupId} {memo after : Memo ν}
    {xs : List (Statistics ν)}, DescendsAll catalog bound gs memo xs after → memo.Led →
      IsEstimated catalog memo → SameUpTo Group.withoutStatistics after memo ∧
        IsEstimated catalog after ∧ EstimatesAll catalog after (gs.map memo.leader) xs
  | _, _, _, _, _, .nil, _, h => ⟨SameUpTo.refl _, h, .nil⟩
  | _, _, _, _, _, .cons _ hfirst hx hrest, hled, h => by
      obtain ⟨hsame, hbetween⟩ := hfirst.isEstimated hled h
      obtain ⟨hsame', hafter, hall⟩ := hrest.isEstimated (hsame.symm.led hled) hbetween
      refine ⟨hsame'.trans hsame, hafter, ?_⟩
      rw [← funext hsame.leader]
      exact .cons ((hbetween _ _ hx).of_standsAs (standsAs_of_sameUpTo hsame' fun _ => rfl)) hall

end

omit [Quantity ν] in
/-- A group that does not exist cannot be given statistics. -/
theorem setStatistics_of_le (h : memo.groups.size ≤ memo.leader g) (x : Statistics ν) :
    setStatistics memo g x = memo := by
  have hgroups : (setStatistics memo g x).groups = memo.groups := by
    refine Array.ext_getElem? fun i => ?_
    rw [getElem?_groups_setStatistics]
    split
    · next hi => rw [← hi, Array.getElem?_eq_none h, Option.map_none]
    · rfl
  exact congrArg (fun groups => { memo with groups := groups }) hgroups

/-- Nor can it be priced. -/
theorem priceGroup_of_le (h : memo.groups.size ≤ memo.leader g) : priceGroup catalog memo g = memo := by
  have hstatistics : (memo.group g).statistics = none := by
    unfold group
    rw [Array.getElem?_eq_none h]
    rfl
  have hrepresentative : representative memo g = none := by
    unfold representative membersOf
    rw [members_group_of_le h]
    rfl
  have hrun : priceGroup catalog memo g =
      setStatistics (setStatistics memo g .unknown) g .unknown := by
    unfold priceGroup deriveStatistics
    show ((if _ then _ else _ : StateM (Memo ν) Unit).run memo).2 = _
    rw [if_neg (by rw [hstatistics]; exact Bool.false_ne_true), hrepresentative]
    rfl
  rw [hrun, setStatistics_of_le h, setStatistics_of_le h]

/-- Pricing a group leaves estimates. -/
theorem isEstimated_priceGroup (h : IsEstimated catalog memo) (hmemo : memo.Led ∧ memo.Grounded)
    (g : GroupId) : IsEstimated catalog (priceGroup catalog memo g) := by
  rcases Nat.lt_or_ge g memo.groups.size with hlt | hge
  · exact ((descends_priceGroup hmemo hlt).1.isEstimated hmemo.1 h).2
  · rw [priceGroup_of_le (hmemo.1.le_leader hge)]
    exact h

/-- So does preparing several groups. -/
theorem isEstimated_prepare (h : IsEstimated catalog memo) (hmemo : memo.Led ∧ memo.Grounded)
    (groups : List GroupId) : IsEstimated catalog (prepare catalog memo groups) := by
  induction groups generalizing memo with
  | nil => exact h
  | cons g rest ih =>
      have hforget : SameUpTo Group.withoutWinners (memo.modifyGroup g Group.withoutWinners) memo :=
        sameUpTo_modifyGroup g fun _ => rfl
      have hforgotten : (memo.modifyGroup g Group.withoutWinners).Led ∧
          (memo.modifyGroup g Group.withoutWinners).Grounded :=
        ⟨hforget.symm.led hmemo.1, hmemo.2.of_sameUpTo hforget fun _ => rfl⟩
      exact ih (isEstimated_priceGroup (h.of_sameUpTo hforget fun _ => ⟨rfl, rfl⟩) hforgotten g)
        (grounded_note hforgotten (priceGroup_sameUpTo catalog _ g))

/-- Estimates would be derived again. -/
theorem IsEstimated.isCurrent (h : IsEstimated catalog memo) (hmemo : memo.Led ∧ memo.Grounded) :
    IsCurrent catalog memo := by
  intro g hg
  have hreread := sameUpTo_reread memo
  have hmemo' : (memo.reread : Memo ν).Led ∧ (memo.reread : Memo ν).Grounded :=
    ⟨hreread.symm.led hmemo.1, hmemo.2.of_sameUpTo hreread fun _ => rfl⟩
  have hlt := hmemo.1.parents_eq_some_iff_lt.mp ⟨g, hmemo.1.mem_liveGroups.mp hg⟩
  -- either way, what is known in the end is the one estimate of the group
  have hestimate : ∀ start : Memo ν, SameUpTo Group.bare start memo → start.Led ∧ start.Grounded →
      IsEstimated catalog start → ∃ x, Estimates catalog memo (memo.leader g) x ∧
        ((prepare catalog start memo.liveGroups).group g).statistics = some x := by
    intro start hsame hstart hestimated
    have hafter := (prepare_sameUpTo catalog start memo.liveGroups).trans hsame
    have hsome : ((prepare catalog start memo.liveGroups).group g).statistics.isSome = true :=
      isSome_statistics_prepare memo.liveGroups hstart (hsame.size ▸ hlt) (Or.inr hg)
    obtain ⟨x, hx⟩ := Option.isSome_iff_exists.mp hsome
    have hnoted := isEstimated_prepare hestimated hstart memo.liveGroups g x hx
    rw [hafter.leader] at hnoted
    exact ⟨x, hnoted.of_standsAs (standsAs_of_sameUpTo hafter.symm fun _ => rfl), hx⟩
  obtain ⟨x, hx, hknown⟩ := hestimate memo (SameUpTo.refl memo) hmemo h
  obtain ⟨y, hy, hagain⟩ := hestimate memo.reread hreread hmemo' (isEstimated_reread memo)
  rw [hknown, hagain, hx.unique hy]

/-! ## Searches -/

omit [Quantity ν] in
/-- A new group comes without statistics. -/
theorem statistics_of_pushed (hled : memo.Led) {t : RowType} {op : Operator} {c : Convention}
    {children : List GroupId} {inputs : List Convention}
    (h : (((memo.pushGroup t).pushMember memo.groups.size op c children inputs).group g).statistics =
      some x) : (memo.group g).statistics = some x := by
  have hpushed : ((memo.pushGroup t).group g).statistics = some x := by
    rw [group_pushMember (leader_pushGroup_self_lt hled t)] at h
    split at h <;> exact h
  by_cases hg : g = memo.groups.size
  · rw [hg, group_pushGroup_self hled] at hpushed
    cases hpushed
  · rwa [group_pushGroup hled t g hg] at hpushed

/-- As long as no groups were merged, all statistics that are noted are estimates. -/
theorem Attained.isEstimated (h : Attained planner memo) (hmerges : memo.merges = 0) :
    IsEstimated planner.catalog memo := by
  induction h with
  | start h =>
      rw [← h.reread_eq]
      exact isEstimated_reread _
  | @addLogical memo h op children hlt ih =>
      refine of_addLogical (P := fun after => after.merges = 0 → IsEstimated planner.catalog after) ih
        (fun t hmerges => (ih hmerges).of_standsAs (standsAs_pushed h.settled.toConsistent t) ?_) hmerges
      exact fun g x hx => statistics_of_pushed h.settled.led hx
  | @addTo memo h g op c children inputs origin hg hlt ih =>
      refine h.settled.of_addTo (P := fun after => after.merges = 0 → IsEstimated planner.catalog after)
        hg ih (fun hsize hmerges => ?_) (fun a b ha hb => ?_) hmerges
      · refine (ih hmerges).of_standsAs (standsAs_pushMember h.settled.toConsistent hsize)
          fun g x hx => ?_
        rw [group_pushMember hsize] at hx
        split at hx <;> exact hx
      · refine (keeps_merge (P := fun after => after.merges = 0 → IsEstimated planner.catalog after)
          (fun memo hconsistent h hmerges => ?_) (fun memo root victim _ _ _ _ _ _ hmerges => ?_) ha hb
          origin memo ⟨h.settled.toConsistent, rfl, ih⟩).2.2
        · exact (h hmerges).of_standsAs (standsAs_reindexed hconsistent) fun _ _ hx => hx
        · cases hmerges
  | @require memo _ g c ih =>
      exact (ih hmerges).of_sameUpTo (sameUpTo_require memo g c) fun _ => ⟨rfl, rfl⟩
  | @markApplied memo _ m hash ih =>
      exact (ih hmerges).of_standsAs (memo.standsAs_markApplied m hash) fun _ _ hx => hx
  | @forget memo _ g ih =>
      have hsame : SameUpTo Group.withoutWinners (memo.modifyGroup g Group.withoutWinners) memo :=
        sameUpTo_modifyGroup g fun _ => rfl
      exact (ih hmerges).of_sameUpTo hsame fun _ => ⟨rfl, rfl⟩
  | @price memo h g ih =>
      rw [(priceGroup_sameUpTo planner.catalog memo g).merges] at hmerges
      exact isEstimated_priceGroup (ih hmerges) ⟨h.settled.led, h.grounded⟩ g
  | @crown memo _ g m x costs _ _ ih =>
      exact (ih hmerges).of_sameUpTo (crown_sameUpTo memo g _ _) fun _ => ⟨rfl, rfl⟩

/-- Without merges, the statistics that are noted would be derived again. -/
theorem Attained.isCurrent (h : Attained planner memo) (hmerges : memo.merges = 0) :
    IsCurrent planner.catalog memo :=
  (h.isEstimated hmerges).isCurrent ⟨h.settled.led, h.grounded⟩

end Search

end QueryPlanner
