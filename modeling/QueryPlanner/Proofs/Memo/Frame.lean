/-
# What a change of groups leaves alone

Winners and statistics are notes on the groups of a memo. Two memos that differ in nothing
but such notes have the same leaders, the same members and the same row types, and whatever
is not made of the notes reads the same in both.

* `group_modifyGroup` : a change of one group shows in the groups that it stands for;
* `SameUpTo` : the same memo, up to a part of every group;
* `SameUpTo.group` : the same groups, up to that part.
-/
import QueryPlanner.Proofs.Memo.Leaders

namespace QueryPlanner

/-- A group without its winners. -/
def Group.withoutWinners {ν : Type} (g : Group ν) : Group ν := { g with winners := [] }

/-- A group without its statistics. -/
def Group.withoutStatistics {ν : Type} (g : Group ν) : Group ν := { g with statistics := none }

/-- A group without anything that pricing and relaxing note on it. -/
def Group.bare {ν : Type} (g : Group ν) : Group ν := g.withoutStatistics.withoutWinners

theorem Group.winners_withoutStatistics {ν : Type} (g : Group ν) :
    g.withoutStatistics.winners = g.winners := rfl

theorem Group.bare_withoutWinners {ν : Type} (g : Group ν) : g.withoutWinners.bare = g.bare := rfl

namespace Memo

variable {ν : Type} {memo a b c : Memo ν}

/-! ## Changes of one group -/

/-- A change of a group shows in all groups that it stands for, and in no other one. -/
theorem group_modifyGroup {g : GroupId} (hg : memo.leader g < memo.groups.size)
    (f : Group ν → Group ν) (other : GroupId) :
    (memo.modifyGroup g f).group other =
      if memo.leader other = memo.leader g then f (memo.group other) else memo.group other := by
  unfold group modifyGroup
  show ((memo.groups.modify (memo.leader g) f)[memo.leader other]?).getD _ = _
  rw [Array.getElem?_modify]
  by_cases ho : memo.leader other = memo.leader g
  · rw [if_pos ho.symm, if_pos ho, ho, Array.getElem?_eq_getElem hg]
    rfl
  · rw [if_neg (Ne.symm ho), if_neg ho]

/-- The group that stands for a group is the group itself. -/
theorem group_eq_of_lt {g : GroupId} (hg : memo.leader g < memo.groups.size) :
    memo.group g = memo.groups[memo.leader g] := by
  unfold group
  rw [Array.getElem?_eq_getElem hg]
  rfl

/-- A group that does not exist has no members. -/
theorem members_group_of_le {g : GroupId} (hg : memo.groups.size ≤ memo.leader g) :
    (memo.group g).members = [] := by
  unfold group
  rw [Array.getElem?_eq_none hg]
  rfl

/-- A group that does not exist has no winners. -/
theorem winner_of_le {g : GroupId} (hg : memo.groups.size ≤ memo.leader g) (c : Convention) :
    memo.winner g c = none := by
  unfold winner group
  rw [Array.getElem?_eq_none hg]
  rfl

/-- Groups of the same leader have the same winners. -/
theorem winner_congr {g other : GroupId} (hl : memo.leader g = memo.leader other) (c : Convention) :
    memo.winner g c = memo.winner other c := by
  unfold winner group
  rw [hl]
  rcases memo.groups[memo.leader other]? with _ | x
  · rfl
  · rfl

/-- Groups of the same leader have the same members. -/
theorem members_congr {g other : GroupId} (hl : memo.leader g = memo.leader other) :
    (memo.group g).members = (memo.group other).members := by
  unfold group
  rw [hl]
  rcases memo.groups[memo.leader other]? with _ | x
  · rfl
  · rfl

/-! ## Memos up to notes on their groups -/

/-- Two memos are the same up to what `note` forgets about groups. -/
structure SameUpTo (note : Group ν → Group ν) (a b : Memo ν) : Prop where
  groups : ∀ i : Nat, a.groups[i]?.map note = b.groups[i]?.map note
  members : a.members = b.members
  parents : a.parents = b.parents
  index : a.index = b.index
  merges : a.merges = b.merges

namespace SameUpTo

variable {note : Group ν → Group ν}

theorem refl (a : Memo ν) : SameUpTo note a a := ⟨fun _ => rfl, rfl, rfl, rfl, rfl⟩

theorem symm (h : SameUpTo note a b) : SameUpTo note b a :=
  ⟨fun i => (h.groups i).symm, h.members.symm, h.parents.symm, h.index.symm, h.merges.symm⟩

theorem trans (hab : SameUpTo note a b) (hbc : SameUpTo note b c) : SameUpTo note a c :=
  ⟨fun i => (hab.groups i).trans (hbc.groups i), hab.members.trans hbc.members,
    hab.parents.trans hbc.parents, hab.index.trans hbc.index, hab.merges.trans hbc.merges⟩

/-- Whoever forgets more sees no more differences. -/
theorem coarsen (h : SameUpTo note a b) (more : Group ν → Group ν) :
    SameUpTo (more ∘ note) a b where
  groups i := by
    rw [← Option.map_map, ← Option.map_map, h.groups]
  members := h.members
  parents := h.parents
  index := h.index
  merges := h.merges

theorem leader (h : SameUpTo note a b) (g : GroupId) : a.leader g = b.leader g := by
  unfold Memo.leader
  rw [h.parents]

theorem member (h : SameUpTo note a b) (m : MemberId) : a.member m = b.member m := by
  unfold Memo.member
  rw [h.members]

/-- The groups are the same up to what is forgotten. -/
theorem group (h : SameUpTo note a b) (g : GroupId) : note (a.group g) = note (b.group g) := by
  have hg := h.groups (b.leader g)
  unfold Memo.group
  rw [h.leader]
  rcases ha : a.groups[b.leader g]? with _ | x <;> rcases hb : b.groups[b.leader g]? with _ | y
  · rfl
  · rw [ha, hb] at hg
    cases hg
  · rw [ha, hb] at hg
    cases hg
  · rw [ha, hb] at hg
    exact Option.some.inj hg

theorem size (h : SameUpTo note a b) : a.groups.size = b.groups.size := by
  have hle : ∀ i : Nat, a.groups.size ≤ i ↔ b.groups.size ≤ i := by
    intro i
    rw [← Array.getElem?_eq_none_iff, ← Array.getElem?_eq_none_iff,
      ← Option.map_eq_none_iff (f := note), h.groups, Option.map_eq_none_iff]
  exact Nat.le_antisymm ((hle _).mpr (Nat.le_refl _)) ((hle _).mp (Nat.le_refl _))

theorem led (h : SameUpTo note a b) (hled : a.Led) : b.Led :=
  hled.of_eq h.parents.symm h.size.symm

theorem liveGroups (h : SameUpTo note a b) : a.liveGroups = b.liveGroups := by
  unfold Memo.liveGroups Memo.isLive
  rw [h.parents, h.size]

/-! ### Reading past the winners -/

section Winners

variable (h : SameUpTo Group.withoutWinners a b)

include h

theorem members_group (g : GroupId) : (a.group g).members = (b.group g).members :=
  show (a.group g).withoutWinners.members = (b.group g).withoutWinners.members from
    congrArg Group.members (h.group g)

theorem rowType_group (g : GroupId) : (a.group g).rowType = (b.group g).rowType :=
  show (a.group g).withoutWinners.rowType = (b.group g).withoutWinners.rowType from
    congrArg Group.rowType (h.group g)

theorem statistics_group (g : GroupId) : (a.group g).statistics = (b.group g).statistics :=
  show (a.group g).withoutWinners.statistics = (b.group g).withoutWinners.statistics from
    congrArg Group.statistics (h.group g)

theorem statisticsOf [Quantity ν] (g : GroupId) : a.statisticsOf g = b.statisticsOf g := by
  unfold Memo.statisticsOf
  rw [h.statistics_group]

end Winners

end SameUpTo

/-- A change of a group that is forgotten leaves the memo the same. -/
theorem sameUpTo_modifyGroup {note : Group ν → Group ν} (g : GroupId) {f : Group ν → Group ν}
    (hf : ∀ x, note (f x) = note x) : SameUpTo note (memo.modifyGroup g f) memo where
  groups i := by
    show ((memo.groups.modify (memo.leader g) f)[i]?).map note = memo.groups[i]?.map note
    rw [Array.getElem?_modify]
    split
    · rw [Option.map_map]
      congr 1
      funext x
      exact hf x
    · rfl
  members := rfl
  parents := rfl
  index := rfl
  merges := rfl

end Memo

end QueryPlanner
