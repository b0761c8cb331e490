/-
# Statistics are derived downwards

A group stands on its first member, a logical one over groups of smaller numbers. So this is the member
that its statistics are estimated from, whatever else is in the group and however groups read each other
in circles, and deriving them only ever goes down. The mark that a group gets before the ones below it
are looked at is never met, let alone read: deriving statistics comes to what it would come to without
marks.

* `Descends` : deriving statistics by going down, without a bound and without marks;
* `run_deriveStatistics_setStatistics` : what is noted on a group makes no difference further down;
* `descends_priceGroup` : pricing a group is deriving its statistics by going down;
* `grounded_statistics` : this holds in all memos that a search passes through.
-/
import QueryPlanner.Proofs.Memo.Grounding
import QueryPlanner.Proofs.Search.Attained
import QueryPlanner.Proofs.Search.RowTypes

namespace QueryPlanner

open Memo

namespace Search

variable {ν : Type} [Quantity ν] {catalog : Catalog ν} {memo : Memo ν} {g a : GroupId}

/-! ## Going down -/

mutual

/-- What deriving the statistics of a group makes of a memo, going down and marking nothing: nothing, if
there are some; else those of the groups that its first member reads are derived, and then it gets what
can be estimated from them. -/
inductive Descends (catalog : Catalog ν) : GroupId → Memo ν → Memo ν → Prop
  | known {memo : Memo ν} {g : GroupId} (h : (memo.group g).statistics.isSome = true) :
      Descends catalog g memo memo
  | estimated {memo between : Memo ν} {g : GroupId} {m : MemberId} {inputs : List (Statistics ν)}
      (h : (memo.group g).statistics = none) (hm : memo.StandsOn (memo.leader g) m)
      (hrepresentative : representative memo g = some (memo.member m))
      (hinputs : DescendsAll catalog (memo.leader g) (memo.member m).children memo inputs between) :
      Descends catalog g memo
        (setStatistics between g ((memo.member m).op.estimate catalog.statistics? inputs))

/-- The statistics of several groups below a number, one after another: each of them has some when they
are read. -/
inductive DescendsAll (catalog : Catalog ν) :
    GroupId → List GroupId → Memo ν → List (Statistics ν) → Memo ν → Prop
  | nil {memo : Memo ν} {bound : GroupId} : DescendsAll catalog bound [] memo [] memo
  | cons {memo between after : Memo ν} {bound g : GroupId} {gs : List GroupId} {x : Statistics ν}
      {rest : List (Statistics ν)} (hlt : memo.leader g < bound) (h : Descends catalog g memo between)
      (hx : (between.group g).statistics = some x)
      (hrest : DescendsAll catalog bound gs between rest after) :
      DescendsAll catalog bound (g :: gs) memo (x :: rest) after

end

/-! ## Notes on statistics -/

omit [Quantity ν] in
theorem leader_setStatistics (x : Statistics ν) : (setStatistics memo a x).leader g = memo.leader g :=
  rfl

omit [Quantity ν] in
/-- The groups as they are stored after statistics were noted. -/
theorem getElem?_groups_setStatistics (x : Statistics ν) (i : Nat) :
    (setStatistics memo g x).groups[i]? = if memo.leader g = i then
      memo.groups[i]?.map fun group => { group with statistics := some x } else memo.groups[i]? :=
  Array.getElem?_modify ..

omit [Quantity ν] in
/-- The statistics of a group are noted on it and on no other one. -/
theorem group_setStatistics_of_ne (x : Statistics ν) (h : memo.leader g ≠ memo.leader a) :
    (setStatistics memo a x).group g = memo.group g := by
  unfold group
  rw [leader_setStatistics, getElem?_groups_setStatistics, if_neg (Ne.symm h)]

omit [Quantity ν] in
theorem statistics_setStatistics (x : Statistics ν) (h : memo.leader g < memo.groups.size) :
    ((setStatistics memo g x).group g).statistics = some x := by
  unfold setStatistics
  rw [group_modifyGroup h, if_pos rfl]

omit [Quantity ν] in
/-- Notes on two groups do not depend on which is taken first. -/
theorem setStatistics_comm (x y : Statistics ν) (h : memo.leader g ≠ memo.leader a) :
    setStatistics (setStatistics memo a x) g y = setStatistics (setStatistics memo g y) a x := by
  have hgroups : (setStatistics (setStatistics memo a x) g y).groups =
      (setStatistics (setStatistics memo g y) a x).groups := by
    refine Array.ext_getElem? fun i => ?_
    simp only [getElem?_groups_setStatistics, leader_setStatistics]
    by_cases hg : memo.leader g = i
    · have ha : memo.leader a ≠ i := fun ha => h (hg.trans ha.symm)
      rw [if_pos hg, if_neg ha, if_neg ha, if_pos hg]
    · rw [if_neg hg, if_neg hg]
  exact congrArg (fun groups => { memo with groups := groups }) hgroups

omit [Quantity ν] in
/-- The last note on a group is the one that stays. -/
theorem setStatistics_setStatistics (x y : Statistics ν) :
    setStatistics (setStatistics memo g x) g y = setStatistics memo g y := by
  have hgroups : (setStatistics (setStatistics memo g x) g y).groups =
      (setStatistics memo g y).groups := by
    refine Array.ext_getElem? fun i => ?_
    simp only [getElem?_groups_setStatistics, leader_setStatistics]
    split
    · rw [Option.map_map]
      rfl
    · rfl
  exact congrArg (fun groups => { memo with groups := groups }) hgroups

omit [Quantity ν] in
/-- Which member represents a group has nothing to do with statistics. -/
theorem representative_setStatistics (x : Statistics ν) :
    representative (setStatistics memo a x) g = representative memo g := by
  have hsame := setStatistics_sameUpTo memo a x
  have hmembers : (setStatistics memo a x).membersOf g = memo.membersOf g := by
    have hgroup := congrArg Group.members (hsame.group g)
    unfold membersOf
    rw [show ((setStatistics memo a x).group g).members = (memo.group g).members from hgroup]
    rfl
  unfold representative
  rw [hmembers]
  rfl

omit [Quantity ν] in
/-- A group that stands on a member is represented by it. -/
theorem representative_of_standsOn {m : MemberId} (hled : memo.Led)
    (h : memo.StandsOn (memo.leader g) m) : representative memo g = some (memo.member m) := by
  have hfirst := h.first
  rw [members_congr (hled.leader_leader g)] at hfirst
  obtain ⟨rest, hrest⟩ := List.head?_eq_some_iff.mp hfirst
  unfold representative membersOf
  rw [hrest, List.map_cons, List.find?_cons_of_pos]
  -- it reads smaller groups only, so that none of them is its own
  rw [h.logical, Bool.true_and, Bool.not_eq_true', List.any_eq_false]
  intro child hchild
  rw [decide_eq_true_eq]
  exact Nat.ne_of_lt (h.below child hchild)

omit [Quantity ν] in
/-- A group that exists stands on its first member. -/
theorem exists_standsOn (h : memo.Grounded) (hled : memo.Led)
    (hg : g < memo.groups.size) : ∃ m, memo.StandsOn (memo.leader g) m :=
  h (memo.leader g) (hled.parents_leader hg)

/-! ## Deriving -/

/-- The statistics of several groups, each derived before they are read. -/
def deriveInputs (catalog : Catalog ν) (fuel : Nat) (gs : List GroupId) :
    StateM (Memo ν) (List (Statistics ν)) :=
  gs.mapM fun child => do
    deriveStatistics catalog fuel child
    pure ((← get).statisticsOf child)

theorem run_deriveInputs_cons (fuel : Nat) (gs : List GroupId) :
    (deriveInputs catalog fuel (g :: gs)).run memo =
      (((deriveStatistics catalog fuel g).run memo).2.statisticsOf g ::
          ((deriveInputs catalog fuel gs).run ((deriveStatistics catalog fuel g).run memo).2).1,
        ((deriveInputs catalog fuel gs).run ((deriveStatistics catalog fuel g).run memo).2).2) := by
  unfold deriveInputs
  rw [List.mapM_cons]
  rfl

/-- Deriving the statistics of a group that has some changes nothing. -/
theorem run_deriveStatistics_of_isSome (fuel : Nat)
    (h : (memo.group g).statistics.isSome = true) :
    ((deriveStatistics catalog fuel g).run memo).2 = memo := by
  cases fuel with
  | zero => rfl
  | succ fuel =>
      unfold deriveStatistics
      show ((if _ then _ else _ : StateM (Memo ν) Unit).run memo).2 = memo
      rw [if_pos h]
      rfl

/-- Those of a group without any are estimated from those of its representative's inputs, which are
derived after the group was marked. -/
theorem run_deriveStatistics_of_none (fuel : Nat) (h : (memo.group g).statistics = none) {m : Member}
    (hm : representative memo g = some m) :
    ((deriveStatistics catalog (fuel + 1) g).run memo).2 =
      setStatistics ((deriveInputs catalog fuel m.children).run (setStatistics memo g .unknown)).2 g
        (m.op.estimate catalog.statistics?
          ((deriveInputs catalog fuel m.children).run (setStatistics memo g .unknown)).1) := by
  rw [deriveStatistics]
  show ((if _ then _ else _ : StateM (Memo ν) Unit).run memo).2 = _
  rw [if_neg (by rw [h]; exact Bool.false_ne_true), hm]
  rfl

/-- Deriving inputs keeps what setting statistics keeps. -/
theorem keeps_deriveInputs {P : Memo ν → Prop}
    (hP : ∀ memo g x, P memo → P (setStatistics memo g x)) (fuel : Nat) (gs : List GroupId)
    (hmemo : P memo) : P ((deriveInputs catalog fuel gs).run memo).2 :=
  run_mapM_keeps (P := P)
    (f := fun child => do
      deriveStatistics catalog fuel child
      pure ((← get).statisticsOf child))
    (fun child other h => keeps_deriveStatistics hP catalog fuel child other h) gs memo hmemo

/-! ## Marks -/

omit [Quantity ν] in
/-- Notes on statistics leave leaders and first members alone. -/
theorem grounded_note (h : memo.Led ∧ memo.Grounded) {other : Memo ν}
    (hsame : SameUpTo Group.withoutStatistics other memo) : other.Led ∧ other.Grounded :=
  ⟨hsame.symm.led h.1, h.2.of_sameUpTo hsame fun _ => rfl⟩

omit [Quantity ν] in
/-- The groups below an existing one exist. -/
theorem lt_of_leader_lt (hled : memo.Led) (hg : g < memo.groups.size) {child : GroupId}
    (h : memo.leader child < memo.leader g) : child < memo.groups.size := by
  by_contra hge
  have hle := hled.le_leader (Nat.le_of_not_lt hge)
  exact Nat.not_lt.mpr hle (Nat.lt_trans h (hled.leader_lt hg))

section Frame

variable {x : Statistics ν} {fuel : Nat}
  (ih : ∀ {memo : Memo ν} {g : GroupId}, memo.Led ∧ memo.Grounded → g < memo.groups.size →
    memo.leader g < memo.leader a →
      ((deriveStatistics catalog fuel g).run (setStatistics memo a x)).2 =
        setStatistics ((deriveStatistics catalog fuel g).run memo).2 a x)

include ih

/-- The same inputs are derived, whatever is noted further up. -/
theorem run_deriveInputs_setStatistics (gs : List GroupId) (hmemo : memo.Led ∧ memo.Grounded)
    (hgs : ∀ child ∈ gs, child < memo.groups.size ∧ memo.leader child < memo.leader a) :
    (deriveInputs catalog fuel gs).run (setStatistics memo a x) =
      (((deriveInputs catalog fuel gs).run memo).1,
        setStatistics ((deriveInputs catalog fuel gs).run memo).2 a x) := by
  induction gs generalizing memo with
  | nil => rfl
  | cons g gs ihgs =>
      obtain ⟨⟨hg, hlt⟩, hrest⟩ := List.forall_mem_cons.mp hgs
      have hsame := deriveStatistics_sameUpTo catalog fuel g memo
      rw [run_deriveInputs_cons, run_deriveInputs_cons, ih hmemo hg hlt]
      have hread : (setStatistics ((deriveStatistics catalog fuel g).run memo).2 a x).statisticsOf g =
          ((deriveStatistics catalog fuel g).run memo).2.statisticsOf g := by
        unfold statisticsOf
        rw [group_setStatistics_of_ne x]
        rw [hsame.leader, hsame.leader]
        exact Nat.ne_of_lt hlt
      rw [hread, ihgs (grounded_note hmemo hsame)]
      intro child hchild
      rw [hsame.leader, hsame.leader, hsame.size]
      exact hrest child hchild

end Frame

/-- What is noted on a group makes no difference for the groups below it, and stays as it is. -/
theorem run_deriveStatistics_setStatistics (fuel : Nat) (x : Statistics ν)
    (hmemo : memo.Led ∧ memo.Grounded) (hg : g < memo.groups.size)
    (hlt : memo.leader g < memo.leader a) :
    ((deriveStatistics catalog fuel g).run (setStatistics memo a x)).2 =
      setStatistics ((deriveStatistics catalog fuel g).run memo).2 a x := by
  induction fuel generalizing memo g with
  | zero => rfl
  | succ fuel ih =>
      have hne : memo.leader g ≠ memo.leader a := Nat.ne_of_lt hlt
      have hgroup := group_setStatistics_of_ne x hne
      rcases hs : (memo.group g).statistics with _ | y
      · obtain ⟨m, hm⟩ := exists_standsOn hmemo.2 hmemo.1 hg
        have hrepresentative := representative_of_standsOn hmemo.1 hm
        have hmarked := grounded_note hmemo (setStatistics_sameUpTo memo g .unknown)
        rw [run_deriveStatistics_of_none fuel (by rw [hgroup, hs])
            ((representative_setStatistics x).trans hrepresentative),
          run_deriveStatistics_of_none fuel hs hrepresentative, setStatistics_comm x _ hne,
          run_deriveInputs_setStatistics ih _ hmarked]
        · refine setStatistics_comm x _ ?_
          have hsame : SameUpTo Group.withoutStatistics ((deriveInputs catalog fuel
              (memo.member m).children).run (setStatistics memo g .unknown)).2 memo :=
            keeps_deriveInputs (P := fun other => SameUpTo Group.withoutStatistics other memo)
              (fun other g x h => (setStatistics_sameUpTo other g x).trans h) fuel _
              (setStatistics_sameUpTo memo g .unknown)
          rw [hsame.leader, hsame.leader]
          exact hne
        · intro child hchild
          have hchildlt := hm.below child hchild
          rw [(setStatistics_sameUpTo memo g .unknown).size]
          exact ⟨lt_of_leader_lt hmemo.1 hg hchildlt, Nat.lt_trans hchildlt hlt⟩
      · have hsome : (memo.group g).statistics.isSome = true := by
          rw [hs]
          rfl
        rw [run_deriveStatistics_of_isSome _ hsome,
          run_deriveStatistics_of_isSome _ (by rw [hgroup]; exact hsome)]

/-- Where each of several groups is derived by going down, all of them are. -/
theorem descendsAll_of_descends {fuel bound : Nat}
    (ih : ∀ {memo : Memo ν} {g : GroupId}, memo.Led ∧ memo.Grounded → g < memo.groups.size →
      memo.leader g < fuel → Descends catalog g memo ((deriveStatistics catalog fuel g).run memo).2 ∧
        (((deriveStatistics catalog fuel g).run memo).2.group g).statistics.isSome = true)
    (gs : List GroupId) (hmemo : memo.Led ∧ memo.Grounded)
    (hgs : ∀ child ∈ gs, child < memo.groups.size ∧ memo.leader child < bound)
    (hfuel : bound ≤ fuel) :
    DescendsAll catalog bound gs memo ((deriveInputs catalog fuel gs).run memo).1
      ((deriveInputs catalog fuel gs).run memo).2 := by
  induction gs generalizing memo with
  | nil => exact .nil
  | cons g gs ihgs =>
      obtain ⟨⟨hg, hlt⟩, hrest⟩ := List.forall_mem_cons.mp hgs
      obtain ⟨hdescends, hsome⟩ := ih hmemo hg (Nat.lt_of_lt_of_le hlt hfuel)
      have hsame := deriveStatistics_sameUpTo catalog fuel g memo
      obtain ⟨x, hx⟩ := Option.isSome_iff_exists.mp hsome
      rw [run_deriveInputs_cons]
      have hread : ((deriveStatistics catalog fuel g).run memo).2.statisticsOf g = x := by
        unfold statisticsOf
        rw [hx]
        rfl
      rw [hread]
      refine .cons hlt hdescends hx (ihgs (grounded_note hmemo hsame) fun child hchild => ?_)
      rw [hsame.leader, hsame.size]
      exact hrest child hchild

/-- Deriving the statistics of a group comes to going down from it, marks or not, and it has some
then. -/
theorem descends_deriveStatistics (fuel : Nat) (hmemo : memo.Led ∧ memo.Grounded)
    (hg : g < memo.groups.size) (hfuel : memo.leader g < fuel) :
    Descends catalog g memo ((deriveStatistics catalog fuel g).run memo).2 ∧
      (((deriveStatistics catalog fuel g).run memo).2.group g).statistics.isSome = true := by
  induction fuel generalizing memo g with
  | zero => exact absurd hfuel (Nat.not_lt_zero _)
  | succ fuel ih =>
      rcases hs : (memo.group g).statistics with _ | y
      · obtain ⟨m, hm⟩ := exists_standsOn hmemo.2 hmemo.1 hg
        have hrepresentative := representative_of_standsOn hmemo.1 hm
        have hchildren : ∀ child ∈ (memo.member m).children,
            child < memo.groups.size ∧ memo.leader child < memo.leader g := fun child hchild =>
          ⟨lt_of_leader_lt hmemo.1 hg (hm.below child hchild), hm.below child hchild⟩
        -- the mark on the group itself is all that tells the memos apart, and it is overwritten
        rw [run_deriveStatistics_of_none fuel hs hrepresentative,
          run_deriveInputs_setStatistics (run_deriveStatistics_setStatistics fuel .unknown) _ hmemo
            hchildren, setStatistics_setStatistics]
        have hsame : SameUpTo Group.withoutStatistics
            ((deriveInputs catalog fuel (memo.member m).children).run memo).2 memo :=
          keeps_deriveInputs (P := fun other => SameUpTo Group.withoutStatistics other memo)
            (fun other g x h => (setStatistics_sameUpTo other g x).trans h) fuel _ (SameUpTo.refl memo)
        refine ⟨.estimated hs hm hrepresentative ?_, ?_⟩
        · exact descendsAll_of_descends ih _ hmemo hchildren (Nat.le_of_lt_succ hfuel)
        · rw [statistics_setStatistics]
          · rfl
          · rw [hsame.leader, hsame.size]
            exact hmemo.1.leader_lt hg
      · have hsome : (memo.group g).statistics.isSome = true := by
          rw [hs]
          rfl
        rw [run_deriveStatistics_of_isSome _ hsome]
        exact ⟨.known hsome, hsome⟩

/-- So does pricing a group. -/
theorem descends_priceGroup (hmemo : memo.Led ∧ memo.Grounded) (hg : g < memo.groups.size) :
    Descends catalog g memo (priceGroup catalog memo g) ∧
      ((priceGroup catalog memo g).group g).statistics.isSome = true :=
  descends_deriveStatistics _ hmemo hg (Nat.lt_succ_of_lt (hmemo.1.leader_lt hg))

/-! ## Searches -/

omit [Quantity ν] in
theorem LogicallyBuilt.grounded (h : LogicallyBuilt memo) : memo.Grounded := by
  induction h with
  | empty => exact grounded_empty
  | addLogical h op hlt ih => exact ih.addLogical h.built.settled.1 hlt

variable {planner : Planner ν}

/-- All memos that a search passes through are grounded. -/
theorem Attained.grounded (h : Attained planner memo) : memo.Grounded := by
  induction h with
  | start h => exact h.grounded
  | addLogical h op hlt ih => exact ih.addLogical h.settled hlt
  | addTo h op c inputs origin hg hlt ih => exact ih.addTo h.settled hg origin
  | @require memo _ g c ih =>
      refine ih.of_sameUpTo (sameUpTo_require memo g c) fun _ => rfl
  | @markApplied memo _ m hash ih => exact ih.of_standsAs (memo.standsAs_markApplied m hash) rfl
  | @forget memo _ g ih =>
      have hsame : SameUpTo Group.withoutWinners (memo.modifyGroup g Group.withoutWinners) memo :=
        sameUpTo_modifyGroup g fun _ => rfl
      exact ih.of_sameUpTo hsame fun _ => rfl
  | @price memo _ g ih =>
      exact ih.of_sameUpTo (priceGroup_sameUpTo planner.catalog memo g) fun _ => rfl
  | @crown memo _ g m x costs _ _ ih =>
      exact ih.of_sameUpTo (crown_sameUpTo memo g _ _) fun _ => rfl

/-- Whatever its rules are, as long as they name groups that exist, a search from a memo of logical
members only passes through memos in which every group that stands for itself has a logical first member
over groups of smaller numbers. That member represents the group, and deriving the statistics of the group
comes to going down from it without any marks, until it has some. -/
theorem grounded_statistics
    (hrules : ∀ rule ∈ planner.registry.rules, NamesGroups planner.catalog rule)
    (hmemo : LogicallyBuilt memo) :
    (∀ root goal, Attained planner ((optimize planner root goal).run.run { memo := memo }).2.memo) ∧
    IsKept planner (Attained planner) ∧
    ∀ passed, Attained planner passed → ∀ g ∈ passed.liveGroups,
      (∃ m, passed.StandsOn g m ∧ representative passed g = some (passed.member m)) ∧
      Descends planner.catalog g passed (priceGroup planner.catalog passed g) ∧
      ((priceGroup planner.catalog passed g).group g).statistics.isSome = true := by
  have hkept := isKept_attained hrules
  refine ⟨fun root goal => hkept.optimize root goal _ (.start hmemo), hkept, ?_⟩
  intro passed hpassed g hg
  have hled := hpassed.settled.led
  have hlive := hled.mem_liveGroups.mp hg
  obtain ⟨m, hm⟩ := hpassed.grounded g hlive
  refine ⟨⟨m, hm, ?_⟩, descends_priceGroup ⟨hled, hpassed.grounded⟩
    (hled.parents_eq_some_iff_lt.mp ⟨g, hlive⟩)⟩
  rw [← leader_of_self hlive] at hm
  exact representative_of_standsOn hled hm

/-- The table and its projection end in one group, which has members that read the group itself. It
still stands on the table. -/
theorem grounded_statistics_projectedOnes :
    LogicallyBuilt projectedOnes ∧
    ((searchedOnes.memo.membersOf 0).any fun m => m.children.contains 0) = true ∧
    ∀ g ∈ searchedOnes.memo.liveGroups,
      (∃ m, searchedOnes.memo.StandsOn g m ∧
        representative searchedOnes.memo g = some (searchedOnes.memo.member m)) ∧
      Descends standardPlanner.catalog g searchedOnes.memo
        (priceGroup standardPlanner.catalog searchedOnes.memo g) := by
  have hrules : ∀ rule ∈ standardPlanner.registry.rules, NamesGroups standardPlanner.catalog rule :=
    namesGroups_of_eq_standard rfl
  obtain ⟨hended, -, hgrounded⟩ := grounded_statistics hrules logicallyBuilt_projectedOnes
  have hattained : Attained standardPlanner searchedOnes.memo := by
    unfold searchedOnes
    exact hended 2 ⟨.compiled, none⟩
  refine ⟨logicallyBuilt_projectedOnes, by decide +kernel, fun g hg => ?_⟩
  obtain ⟨hstands, hdescends, -⟩ := hgrounded _ hattained g hg
  exact ⟨hstands, hdescends⟩

end Search

end QueryPlanner
