/-
# Statistics are derived

The statistics of a group are derived from those of the groups that its first suitable member reads,
and groups may read each other in circles. Each group is marked before the ones below it are looked
at, so that none is entered twice: there are fewer and fewer groups without statistics, and their
number bounds how deep the derivation goes.

* `Derives` : what deriving statistics comes to, without a bound on its depth;
* `underived_setStatistics` : a group that is marked is done with;
* `derives_priceGroup` : the bound on the depth is never reached.
-/
import Mathlib.Data.Finset.Card
import QueryPlanner.Proofs.Search.Pricing

namespace QueryPlanner

namespace Search

variable {ν : Type} [Quantity ν] {catalog : Catalog ν} {memo : Memo ν} {g : GroupId}

mutual

/-- What deriving the statistics of a group makes of a memo, however deep it goes: nothing, if there
are some; else the group is marked, the groups that its representative reads are derived, and then
it gets what can be estimated from them. -/
inductive Derives (catalog : Catalog ν) : GroupId → Memo ν → Memo ν → Prop
  | known {memo : Memo ν} {g : GroupId} (h : (memo.group g).statistics.isSome = true) :
      Derives catalog g memo memo
  | unknown {memo : Memo ν} {g : GroupId} (h : ¬ (memo.group g).statistics.isSome = true)
      (hm : representative memo g = none) :
      Derives catalog g memo (setStatistics (setStatistics memo g .unknown) g .unknown)
  | estimated {memo between : Memo ν} {g : GroupId} {m : Member} {inputs : List (Statistics ν)}
      (h : ¬ (memo.group g).statistics.isSome = true) (hm : representative memo g = some m)
      (hinputs : DerivesAll catalog m.children (setStatistics memo g .unknown) inputs between) :
      Derives catalog g memo (setStatistics between g (m.op.estimate catalog.statistics? inputs))

/-- The statistics of several groups, one after another. -/
inductive DerivesAll (catalog : Catalog ν) :
    List GroupId → Memo ν → List (Statistics ν) → Memo ν → Prop
  | nil {memo : Memo ν} : DerivesAll catalog [] memo [] memo
  | cons {memo between after : Memo ν} {g : GroupId} {gs : List GroupId}
      {rest : List (Statistics ν)} (h : Derives catalog g memo between)
      (hrest : DerivesAll catalog gs between rest after) :
      DerivesAll catalog (g :: gs) memo (between.statisticsOf g :: rest) after

end

/-- The groups without statistics. -/
def underived (memo : Memo ν) : Finset Nat :=
  (Finset.range memo.groups.size).filter fun i =>
    (memo.groups[i]?.bind Group.statistics).isNone = true

omit [Quantity ν] in
/-- When a group is given statistics, it is no longer without. -/
theorem underived_setStatistics (memo : Memo ν) (g : GroupId) (x : Statistics ν) :
    underived (setStatistics memo g x) = (underived memo).erase (memo.leader g) := by
  ext i
  have hsize : (setStatistics memo g x).groups.size = memo.groups.size := Array.size_modify ..
  have hread : (setStatistics memo g x).groups[i]? = if memo.leader g = i then
      memo.groups[i]?.map fun group => { group with statistics := some x } else memo.groups[i]? :=
    Array.getElem?_modify ..
  unfold underived
  rw [Finset.mem_erase, Finset.mem_filter, Finset.mem_filter, Finset.mem_range, Finset.mem_range,
    hsize, hread]
  by_cases hi : memo.leader g = i
  · rw [if_pos hi]
    constructor
    · rintro ⟨hlt, hnone⟩
      rw [Array.getElem?_eq_getElem hlt] at hnone
      cases hnone
    · rintro ⟨hne, -⟩
      exact absurd hi.symm hne
  · rw [if_neg hi]
    constructor
    · intro h
      exact ⟨Ne.symm hi, h⟩
    · intro h
      exact h.2

/-- Deriving statistics leaves no more groups without. -/
theorem underived_deriveStatistics_subset (catalog : Catalog ν) (fuel : Nat) (g : GroupId)
    (memo : Memo ν) :
    underived ((deriveStatistics catalog fuel g).run memo).2 ⊆ underived memo := by
  refine keeps_deriveStatistics (P := fun other => underived other ⊆ underived memo)
    (fun other g x h => ?_) catalog fuel g memo (Finset.Subset.refl _)
  rw [underived_setStatistics]
  exact (Finset.erase_subset _ _).trans h

omit [Quantity ν] in
/-- A group with a representative exists, so that it is one of those without statistics if it has
none. -/
theorem leader_mem_underived {m : Member} (h : ¬ (memo.group g).statistics.isSome = true)
    (hm : representative memo g = some m) : memo.leader g ∈ underived memo := by
  have hlt : memo.leader g < memo.groups.size := by
    by_contra hge
    have hnone : memo.membersOf g = [] := by
      unfold Memo.membersOf
      rw [Memo.members_group_of_le (Nat.le_of_not_lt hge)]
      rfl
    unfold representative at hm
    rw [hnone] at hm
    cases hm
  unfold underived
  rw [Finset.mem_filter, Finset.mem_range, Array.getElem?_eq_getElem hlt]
  refine ⟨hlt, ?_⟩
  rw [Memo.group_eq_of_lt hlt, Option.not_isSome_iff_eq_none] at h
  exact Option.isNone_iff_eq_none.mpr h

/-- Where each of several groups is derived as it would be without a bound, all of them are. -/
theorem derivesAll_of_derives {fuel : Nat}
    (h : ∀ g (memo : Memo ν), (underived memo).card < fuel →
      Derives catalog g memo ((deriveStatistics catalog fuel g).run memo).2)
    (gs : List GroupId) (hfuel : (underived memo).card < fuel) :
    DerivesAll catalog gs memo
      ((gs.mapM fun child => do
        deriveStatistics catalog fuel child
        pure ((← get).statisticsOf child) : StateM (Memo ν) (List (Statistics ν))).run memo).1
      ((gs.mapM fun child => do
        deriveStatistics catalog fuel child
        pure ((← get).statisticsOf child) : StateM (Memo ν) (List (Statistics ν))).run memo).2 := by
  induction gs generalizing memo with
  | nil => exact .nil
  | cons g rest ih =>
      rw [List.mapM_cons]
      have hsubset := underived_deriveStatistics_subset catalog fuel g memo
      exact .cons (h g memo hfuel) (ih (Nat.lt_of_le_of_lt (Finset.card_le_card hsubset) hfuel))

/-- With more depth than there are groups without statistics, deriving them comes to what it would
come to without a bound. -/
theorem derives_deriveStatistics (catalog : Catalog ν) (fuel : Nat) (g : GroupId) (memo : Memo ν)
    (hfuel : (underived memo).card < fuel) :
    Derives catalog g memo ((deriveStatistics catalog fuel g).run memo).2 := by
  induction fuel generalizing g memo with
  | zero => exact absurd hfuel (Nat.not_lt_zero _)
  | succ fuel ih =>
      unfold deriveStatistics
      by_cases hs : (memo.group g).statistics.isSome = true
      · show Derives catalog g memo ((if _ then _ else _ : StateM (Memo ν) Unit).run memo).2
        rw [if_pos hs]
        exact .known hs
      · show Derives catalog g memo ((if _ then _ else _ : StateM (Memo ν) Unit).run memo).2
        rw [if_neg hs]
        rcases hm : representative memo g with _ | m
        · exact .unknown hs hm
        · refine .estimated hs hm (derivesAll_of_derives ih m.children ?_)
          rw [underived_setStatistics]
          have hlt := Finset.card_erase_lt_of_mem (leader_mem_underived hs hm)
          exact Nat.lt_of_lt_of_le hlt (Nat.le_of_lt_succ hfuel)

/-- Pricing a group comes to what deriving its statistics comes to. -/
theorem derives_priceGroup (catalog : Catalog ν) (memo : Memo ν) (g : GroupId) :
    Derives catalog g memo (priceGroup catalog memo g) := by
  refine derives_deriveStatistics catalog _ g memo (Nat.lt_succ_of_le ?_)
  exact (Finset.card_filter_le _ _).trans_eq (Finset.card_range _)

end Search

end QueryPlanner
