/-
# Finding winners again

Winners are found anew whenever they are looked for, but statistics that are known stay as they are. So
to look for winners twice in a row makes no difference, and what is noted beforehand makes one in one way
only: if there are statistics that would not be derived again.

* `Tidy.ext` : a memo is what it is without notes, and the notes of the groups that stand for themselves;
* `prepare_eq_of_statistics` : what winners are looked for in depends on no notes but statistics;
* `findWinners_again` : looking for winners again finds the same;
* `IsCurrent` : the statistics that are known would be derived again;
* `run_findWinners_reread` : then the same winners are found from no notes at all.
-/
import QueryPlanner.Proofs.Search.Grounding
import QueryPlanner.Proofs.Search.Reread

namespace QueryPlanner

open Memo

variable {ν : Type}

/-- A group is what it is without notes, and its notes. -/
theorem Group.eq_of_bare {x y : Group ν} (hbare : x.bare = y.bare) (hwinners : x.winners = y.winners)
    (hstatistics : x.statistics = y.statistics) : x = y := by
  have hnoted : ∀ z : Group ν, z = { z.bare with winners := z.winners, statistics := z.statistics } :=
    fun _ => rfl
  rw [hnoted x, hnoted y, hbare, hwinners, hstatistics]

namespace Memo

variable {memo a b : Memo ν}

/-! ## Notes -/

/-- The groups that stand for themselves are stored under their own numbers. -/
theorem getElem?_groups_of_live (hled : memo.Led) {g : GroupId} (hlive : memo.parents[g]? = some g) :
    memo.groups[g]? = some (memo.group g) := by
  have hlt := hled.parents_eq_some_iff_lt.mp ⟨g, hlive⟩
  unfold group
  rw [leader_of_self hlive, Array.getElem?_eq_getElem hlt]
  rfl

/-- Tidy memos that differ in nothing but notes are the same, if the groups that stand for themselves
have the same ones. -/
theorem Tidy.ext (ha : a.Tidy) (hb : b.Tidy) (hled : a.Led) (hsame : SameUpTo Group.bare a b)
    (hnotes : ∀ g ∈ a.liveGroups, (a.group g).winners = (b.group g).winners ∧
      (a.group g).statistics = (b.group g).statistics) : a = b := by
  have hgroups : a.groups = b.groups := by
    refine Array.ext_getElem? fun i => ?_
    by_cases hlive : a.parents[i]? = some i
    · rw [getElem?_groups_of_live hled hlive,
        getElem?_groups_of_live (hsame.led hled) (hsame.parents ▸ hlive)]
      obtain ⟨hwinners, hstatistics⟩ := hnotes i (hled.mem_liveGroups.mpr hlive)
      exact congrArg some (Group.eq_of_bare (hsame.group i) hwinners hstatistics)
    · have hbare := hsame.groups i
      rcases hx : a.groups[i]? with _ | x
      · rw [hx] at hbare
        exact (Option.map_eq_none_iff.mp hbare.symm).symm
      · rw [hx] at hbare
        obtain ⟨y, hy, hxy⟩ := Option.map_eq_some_iff.mp hbare.symm
        obtain ⟨-, hwinners, hstatistics⟩ := ha i x hx hlive
        obtain ⟨-, hwinners', hstatistics'⟩ := hb i y hy (hsame.parents ▸ hlive)
        rw [hy, Group.eq_of_bare hxy (hwinners'.trans hwinners.symm)
          (hstatistics'.trans hstatistics.symm)]
  have hparts : ∀ memo : Memo ν,
      memo = ⟨memo.groups, memo.members, memo.parents, memo.index, memo.merges⟩ := fun _ => rfl
  rw [hparts a, hparts b, hgroups, hsame.members, hsame.parents, hsame.index, hsame.merges]

end Memo

/-- A memo of logical members has no notes. -/
theorem Search.LogicallyBuilt.reread_eq {memo : Memo ν} (h : LogicallyBuilt memo) :
    memo.reread = memo := by
  induction h with
  | empty => exact reread_empty
  | @addLogical memo _ op children _ ih =>
      have hmirrors : Mirrors (Memo.reread : Memo ν → Memo ν) (Memo.addLogical op children)
        (Memo.addLogical op children) memo := mirrors_addLogical op children
      have hstate := hmirrors.state
      rw [ih] at hstate
      exact hstate.symm

namespace Search

variable [Quantity ν] {planner : Planner ν} {catalog : Catalog ν} {memo : Memo ν} {s t : Search ν}

/-! ## Preparing -/

/-- Preparing changes notes of groups that stand for themselves only. -/
theorem keeps_tidy_prepare (catalog : Catalog ν) (groups : List GroupId) (h : memo.Led ∧ memo.Tidy) :
    (prepare catalog memo groups).Led ∧ (prepare catalog memo groups).Tidy := by
  induction groups generalizing memo with
  | nil => exact h
  | cons g rest ih =>
      refine ih (keeps_deriveStatistics (P := fun memo : Memo ν => memo.Led ∧ memo.Tidy) ?_ catalog _ g
        _ ⟨led_modifyGroup h.1 g _, h.2.modifyGroup h.1 g _⟩)
      exact fun memo g x h => ⟨led_modifyGroup h.1 g _, h.2.modifyGroup h.1 g _⟩

/-- Statistics that are known stay as they are. -/
theorem statistics_prepare_of_known (groups : List GroupId)
    (h : ∀ g ∈ groups, (memo.group g).statistics.isSome = true) (g : GroupId) :
    ((prepare catalog memo groups).group g).statistics = (memo.group g).statistics := by
  induction groups generalizing memo with
  | nil => rfl
  | cons a rest ih =>
      obtain ⟨ha, hrest⟩ := List.forall_mem_cons.mp h
      have hforget : SameUpTo Group.withoutWinners (memo.modifyGroup a Group.withoutWinners) memo :=
        sameUpTo_modifyGroup a fun _ => rfl
      have hpriced : priceGroup catalog (memo.modifyGroup a Group.withoutWinners) a =
          memo.modifyGroup a Group.withoutWinners := by
        refine run_deriveStatistics_of_isSome _ ?_
        rw [hforget.statistics_group]
        exact ha
      show ((prepare catalog (priceGroup catalog (memo.modifyGroup a Group.withoutWinners) a)
        rest).group g).statistics = _
      rw [hpriced, ih, hforget.statistics_group]
      intro g hg
      rw [hforget.statistics_group]
      exact hrest g hg

omit [Quantity ν] in
/-- Statistics do not go when others are noted. -/
theorem isSome_setStatistics {g a : GroupId} (x : Statistics ν)
    (h : (memo.group g).statistics.isSome = true) :
    ((setStatistics memo a x).group g).statistics.isSome = true := by
  unfold group at *
  rw [leader_setStatistics, getElem?_groups_setStatistics]
  split
  · rcases hg : memo.groups[memo.leader g]? with _ | group
    · rw [hg] at h
      cases h
    · rfl
  · exact h

/-- Groups that are prepared have statistics. -/
theorem isSome_statistics_prepare (groups : List GroupId) (hmemo : memo.Led ∧ memo.Grounded) {g : GroupId}
    (hlt : g < memo.groups.size) (hg : (memo.group g).statistics.isSome = true ∨ g ∈ groups) :
    ((prepare catalog memo groups).group g).statistics.isSome = true := by
  induction groups generalizing memo with
  | nil => exact hg.resolve_right List.not_mem_nil
  | cons a rest ih =>
      have hforget : SameUpTo Group.withoutWinners (memo.modifyGroup a Group.withoutWinners) memo :=
        sameUpTo_modifyGroup a fun _ => rfl
      have hforgotten : (memo.modifyGroup a Group.withoutWinners).Led ∧
          (memo.modifyGroup a Group.withoutWinners).Grounded :=
        ⟨hforget.symm.led hmemo.1, hmemo.2.of_sameUpTo hforget fun _ => rfl⟩
      have hlt' : g < (memo.modifyGroup a Group.withoutWinners).groups.size := hforget.size ▸ hlt
      have hpriced := priceGroup_sameUpTo catalog (memo.modifyGroup a Group.withoutWinners) a
      refine ih (grounded_note hforgotten hpriced) (hpriced.size ▸ hlt') ?_
      rw [List.mem_cons, ← or_assoc] at hg
      refine hg.imp_left fun hknown => ?_
      rcases hknown with hknown | rfl
      · refine keeps_deriveStatistics (P := fun memo : Memo ν =>
          (memo.group g).statistics.isSome = true) (fun _ _ x h => isSome_setStatistics x h) catalog _ a _ ?_
        rwa [hforget.statistics_group]
      · exact (descends_priceGroup hforgotten hlt').2

/-- Memos that differ in notes are prepared to the same one, if the same statistics are known then. -/
theorem prepare_eq_of_statistics {a b : Memo ν} (ha : a.Led ∧ a.Tidy) (hb : b.Led ∧ b.Tidy)
    (hsame : SameUpTo Group.bare a b)
    (hstatistics : ∀ g ∈ b.liveGroups, ((prepare catalog a b.liveGroups).group g).statistics =
      ((prepare catalog b b.liveGroups).group g).statistics) :
    prepare catalog a b.liveGroups = prepare catalog b b.liveGroups := by
  have hafter := prepare_sameUpTo catalog a b.liveGroups
  have hafter' := prepare_sameUpTo catalog b b.liveGroups
  have htidy := keeps_tidy_prepare catalog b.liveGroups ha
  refine htidy.2.ext (keeps_tidy_prepare catalog b.liveGroups hb).2 htidy.1
    ((hafter.trans hsame).trans hafter'.symm) fun g hg => ?_
  rw [hafter.liveGroups, hsame.liveGroups] at hg
  refine ⟨?_, hstatistics g hg⟩
  rw [winners_prepare _ _ _ (Or.inr hg), winners_prepare _ _ _ (Or.inr hg)]

/-! ## Finding winners twice -/

/-- Winners are found from the memo that is prepared for it. -/
theorem run_findWinners (planner : Planner ν) (s : Search ν) :
    (findWinners planner).run.run s =
      (settle planner s.memo.liveGroups
          (settleFuel (prepare planner.catalog s.memo s.memo.liveGroups))).run.run
        { s with memo := prepare planner.catalog s.memo s.memo.liveGroups } := by
  unfold findWinners
  rw [run_bind_of_ok (returns_memoNow.mpr ⟨rfl, rfl⟩), run_bind_of_ok ((returns_modifyMemo (u := ())).mpr rfl),
    run_bind_of_ok (returns_memoNow.mpr ⟨rfl, rfl⟩)]
  rfl

/-- Looking for winners again finds the same. -/
theorem findWinners_again (hs : Attained planner s.memo) (h : Returns (findWinners planner) s () t) :
    Returns (findWinners planner) t () t := by
  have ht : Attained planner t.memo := (keeps_attained_findWinners planner).of_returns h hs
  have hstate := eq_of_returns_findWinners h
  unfold Returns at h ⊢
  rw [run_findWinners] at h ⊢
  generalize hp : prepare planner.catalog s.memo s.memo.liveGroups = prepared at h
  -- only winners were found since the memo was prepared
  have hfound : SameUpTo Group.withoutWinners t.memo prepared :=
    (keeps_settle (P := fun u : Search ν => SameUpTo Group.withoutWinners u.memo prepared)
      (fun u g m x costs _ _ hu => (crown_sameUpTo u.memo g _ _).trans hu) _ _).of_returns h
      (SameUpTo.refl prepared)
  have hbefore : SameUpTo Group.bare prepared s.memo := by
    rw [← hp]
    exact prepare_sameUpTo planner.catalog s.memo _
  have hlive : t.memo.liveGroups = s.memo.liveGroups := hfound.liveGroups.trans hbefore.liveGroups
  have hknown : ∀ g ∈ s.memo.liveGroups, (prepared.group g).statistics.isSome = true := by
    intro g hg
    rw [← hp]
    refine isSome_statistics_prepare _ ⟨hs.settled.led, hs.grounded⟩ ?_ (Or.inr hg)
    exact hs.settled.led.parents_eq_some_iff_lt.mp ⟨g, hs.settled.led.mem_liveGroups.mp hg⟩
  have hagain : prepare planner.catalog t.memo s.memo.liveGroups = prepared := by
    rw [← hp]
    refine prepare_eq_of_statistics ⟨ht.settled.led, ht.built.settled.2⟩
      ⟨hs.settled.led, hs.built.settled.2⟩
      ((hfound.coarsen Group.withoutStatistics).trans hbefore) fun g _ => ?_
    rw [hp, statistics_prepare_of_known, hfound.statistics_group]
    intro g hg
    rw [hfound.statistics_group]
    exact hknown g hg
  have hprepared : ({ t with memo := prepared } : Search ν) = { s with memo := prepared } := by
    rw [hstate]
  rw [hlive, hagain, hprepared]
  exact h

/-! ## Finding winners without notes -/

/-- The statistics that are known would be derived again. -/
def IsCurrent (catalog : Catalog ν) (memo : Memo ν) : Prop :=
  ∀ g ∈ memo.liveGroups, ((prepare catalog memo memo.liveGroups).group g).statistics =
    ((prepare catalog memo.reread memo.liveGroups).group g).statistics

/-- Then the same winners are found from no notes at all. -/
theorem run_findWinners_reread (hs : Attained planner s.memo)
    (hcurrent : IsCurrent planner.catalog s.memo) :
    (findWinners planner).run.run s.reread = (findWinners planner).run.run s := by
  have hled := hs.settled.led
  have hlive : (s.memo.reread : Memo ν).liveGroups = s.memo.liveGroups := liveGroups_reread
  have hsame := sameUpTo_reread s.memo
  have hprepared : prepare planner.catalog s.memo.reread s.memo.liveGroups =
      prepare planner.catalog s.memo s.memo.liveGroups :=
    prepare_eq_of_statistics ⟨hsame.symm.led hled, hs.built.settled.2.reread⟩
      ⟨hled, hs.built.settled.2⟩ hsame fun g hg => (hcurrent g hg).symm
  rw [run_findWinners, run_findWinners, ← hprepared, ← hlive]
  rfl

end Search

end QueryPlanner
