/-
# Merging groups

Two members of the same key show that their groups are the same, and a merge can give further
members the same key. A rebuild repeats merging for as long as it finds such members. What is
merged in the end is what has to be, and no more: the groups of the same leader are those that the
smallest congruence relates which holds the two groups that were to be merged.

* `exists_of_enter_eq_some`, `exists_get?_enter` : what entering all members into an index finds;
* `IsCongruence` : an equivalence of groups that is closed under the members;
* `Merged` : what any number of merges leaves of the memo they began with;
* `Merged.exists_rebuildsTo` : a rebuild ends, without an error, in a settled memo;
* `Merged.isLeast` : there, the groups of the same leader are those that have to be merged.
-/
import Mathlib.Data.List.Forall2
import Mathlib.Order.Basic
import Mathlib.Order.Bounds.Defs
import QueryPlanner.Proofs.Memo.Consistency

namespace QueryPlanner

namespace Memo

variable {ν : Type} {memo : Memo ν}

/-! ## Entering members into an index -/

section Enter

variable {members : List Member} {index : MemberIndex}

/-- Members that are entered hide none that the index had. -/
theorem get?_enter_of_eq_some {key : MemberKey} {m : MemberId} (h : index.get? key = some m) :
    (memo.enter members index).1.get? key = some m := by
  induction members generalizing index with
  | nil => exact h
  | cons next rest ih =>
      unfold enter
      split
      · next hnew =>
          refine ih ?_
          rw [MemberIndex.get?_insert_member, if_neg, h]
          intro heq
          rw [heq, h] at hnew
          cases hnew
      · dsimp only
        split
        · exact ih h
        · exact h

/-- The index knows the members that are entered, too. -/
theorem knows_enter (h : memo.Knows index)
    (hmembers : ∀ m ∈ members, m.id < memo.members.size ∧ memo.member m.id = m) :
    memo.Knows (memo.enter members index).1 := by
  induction members generalizing index with
  | nil => exact h
  | cons next rest ih =>
      obtain ⟨⟨hlt, hnext⟩, hrest⟩ := List.forall_mem_cons.mp hmembers
      unfold enter
      split
      · refine ih (fun key m hm => ?_) hrest
        rw [MemberIndex.get?_insert_member] at hm
        split at hm
        · next heq =>
            cases hm
            rw [hnext]
            exact ⟨hlt, heq⟩
        · exact h key m hm
      · dsimp only
        split
        · exact ih h hrest
        · exact h

/-- Where no two groups are found to be the same, the index has the key of every member for a
member of the same group. -/
theorem exists_get?_enter (hmembers : ∀ m ∈ members, memo.member m.id = m)
    (h : (memo.enter members index).2 = none) {m : Member} (hm : m ∈ members) :
    ∃ first, (memo.enter members index).1.get? m.key = some first ∧
      (memo.member first).group = m.group := by
  induction members generalizing index with
  | nil => exact absurd hm List.not_mem_nil
  | cons next rest ih =>
      obtain ⟨hnext, hrest⟩ := List.forall_mem_cons.mp hmembers
      unfold enter at h ⊢
      split at h
      · next hnew =>
          rcases List.mem_cons.mp hm with rfl | hm
          · refine ⟨m.id, get?_enter_of_eq_some ?_, by rw [hnext]⟩
            rw [MemberIndex.get?_insert_member, if_pos rfl]
          · exact ih hrest h hm
      · next first hfirst =>
          dsimp only at h ⊢
          split at h
          · next howner =>
              rw [if_pos howner]
              rcases List.mem_cons.mp hm with rfl | hm
              · exact ⟨first, get?_enter_of_eq_some hfirst, howner⟩
              · exact ih hrest h hm
          · cases h

/-- Two groups that are found to be the same are those of two members of the same key. -/
theorem exists_of_enter_eq_some {a b : GroupId} (h : (memo.enter members index).2 = some (a, b)) :
    a ≠ b ∧ ∃ m ∈ members, ∃ first, (memo.enter members index).1.get? m.key = some first ∧
      (memo.member first).group = a ∧ m.group = b := by
  induction members generalizing index with
  | nil => cases h
  | cons next rest ih =>
      unfold enter at h ⊢
      split at h
      · obtain ⟨hne, m, hm, hfirst⟩ := ih h
        exact ⟨hne, m, List.mem_cons_of_mem _ hm, hfirst⟩
      · next first hfirst =>
          dsimp only at h ⊢
          split at h
          · next howner =>
              rw [if_pos howner]
              obtain ⟨hne, m, hm, hfirst⟩ := ih h
              exact ⟨hne, m, List.mem_cons_of_mem _ hm, hfirst⟩
          · next howner =>
              rw [if_neg howner]
              cases h
              exact ⟨howner, next, List.mem_cons_self, first, hfirst, rfl, rfl⟩

end Enter

/-- Every member has its own number. -/
theorem Consistent.mem_members (h : memo.Consistent) {m : Member} (hm : m ∈ memo.members.toList) :
    m.id < memo.members.size ∧ memo.member m.id = m := by
  obtain ⟨i, hi, rfl⟩ := List.mem_iff_getElem.mp hm
  have hlt : i < memo.members.size := hi
  have hread : memo.member i = memo.members.toList[i] := by
    unfold Memo.member
    rw [Array.getElem?_eq_getElem hlt]
    rfl
  have hid := (h.member i hlt).2
  rw [hread] at hid
  rw [hid, hread]
  exact ⟨hlt, rfl⟩

theorem member_mem_toList {m : MemberId} (hm : m < memo.members.size) :
    memo.member m ∈ memo.members.toList := by
  unfold member
  rw [Array.getElem?_eq_getElem hm]
  exact Array.getElem_mem_toList hm

theorem Consistent.reindexed (h : memo.Consistent) : memo.reindexed.Consistent :=
  (consistent_readLeaders h).withIndex _

theorem member_reindexed {m : MemberId} (hm : m < memo.members.size) :
    memo.reindexed.member m = { memo.member m with
      children := (memo.member m).children.map memo.leader } :=
  member_readLeaders hm

theorem size_members_reindexed : memo.reindexed.members.size = memo.members.size :=
  Array.size_map ..

/-- The index that a rebuild makes knows the members. -/
theorem Consistent.knows_reindexed (h : memo.Consistent) :
    memo.reindexed.Knows memo.reindexed.index := by
  have hempty : memo.readLeaders.Knows {} := fun _ _ hm => nomatch hm
  exact knows_enter hempty fun _ hm => (consistent_readLeaders h).mem_members hm

/-- A rebuild that finds no groups to merge settles the memo. -/
theorem settled_reindexed (h : memo.Consistent) (hnone : memo.conflict = none) :
    memo.reindexed.Settled where
  toConsistent := h.reindexed
  children_live m hm g hg := by
    rw [size_members_reindexed] at hm
    rw [member_reindexed hm] at hg
    obtain ⟨child, hchild, rfl⟩ := List.mem_map.mp hg
    exact h.led.parents_leader ((h.member m hm).1.children_lt child hchild)
  knows := h.knows_reindexed
  indexed m hm := by
    have hmem : memo.readLeaders.member m ∈ memo.readLeaders.members.toList := member_mem_toList hm
    exact exists_get?_enter (fun _ hm => ((consistent_readLeaders h).mem_members hm).2) hnone hmem

/-- The groups that a rebuild is going to merge have members of the same key. -/
theorem exists_of_conflict (h : memo.Consistent) {a b : GroupId}
    (hsome : memo.conflict = some (a, b)) : a ≠ b ∧
      ∃ m < memo.members.size, ∃ m' < memo.members.size,
        (memo.reindexed.member m).key = (memo.reindexed.member m').key ∧
          (memo.member m).group = a ∧ (memo.member m').group = b := by
  obtain ⟨hne, x, hx, first, hfirst, ha, hb⟩ := exists_of_enter_eq_some hsome
  obtain ⟨hlt, hkey⟩ := h.knows_reindexed _ _ hfirst
  obtain ⟨hlt', hread⟩ := (consistent_readLeaders h).mem_members hx
  change memo.reindexed.member x.id = x at hread
  change (memo.reindexed.member first).group = a at ha
  rw [size_members_reindexed] at hlt
  have hlt' : x.id < memo.members.size := lt_of_lt_of_eq hlt' (Array.size_map ..)
  refine ⟨hne, first, hlt, x.id, hlt', by rw [hkey, hread], ?_, ?_⟩
  · rwa [member_reindexed hlt] at ha
  · rwa [← hread, member_reindexed hlt'] at hb

/-! ## Congruences -/

/-- An equivalence of groups that holds `a` and `b`, that relates what stands for the same group
already, and that relates the groups of two members of the same operator, convention and
conventions of inputs once it relates their inputs one by one. -/
structure IsCongruence (memo : Memo ν) (a b : GroupId) (r : GroupId → GroupId → Prop) : Prop where
  equivalence : Equivalence r
  same : ∀ x y, memo.leader x = memo.leader y → r x y
  pair : r a b
  members : ∀ m < memo.members.size, ∀ m' < memo.members.size,
    (memo.member m).op.canonical = (memo.member m').op.canonical →
    (memo.member m).convention = (memo.member m').convention →
    (memo.member m).inputs = (memo.member m').inputs →
    List.Forall₂ r (memo.member m).children (memo.member m').children →
    r (memo.member m).group (memo.member m').group

/-- What has the same leader in one memo has it in another one, too. -/
def CoarsenedBy (memo after : Memo ν) : Prop :=
  ∀ x y, memo.leader x = memo.leader y → after.leader x = after.leader y

/-- What any number of merges leaves of the memo `first` that they began with, when `a` and `b`
are to be the same: members read and belong to the leaders of what they did before, and two groups
have the same leader only if every congruence relates them. -/
structure Merged (first : Memo ν) (a b : GroupId) (memo : Memo ν) : Prop where
  consistent : memo.Consistent
  tidy : first.Tidy → memo.Tidy
  size_groups : memo.groups.size = first.groups.size
  size_members : memo.members.size = first.members.size
  coarser : first.CoarsenedBy memo
  member : ∀ m < first.members.size, ∃ children,
    memo.member m = { first.member m with
      group := memo.leader (first.member m).group, children := children } ∧
    children.map memo.leader = (first.member m).children.map memo.leader
  minimal : ∀ r, first.IsCongruence a b r → ∀ x y, memo.leader x = memo.leader y → r x y

variable {first : Memo ν} {a b : GroupId}

/-- No merges leave everything as it is. -/
theorem Consistent.merged (h : memo.Consistent) (a b : GroupId) : memo.Merged a b memo where
  consistent := h
  tidy htidy := htidy
  size_groups := rfl
  size_members := rfl
  coarser _ _ hxy := hxy
  member m hm := by
    refine ⟨(memo.member m).children, ?_, rfl⟩
    rw [leader_of_self (h.member m hm).1.group_live]
  minimal _ hr := hr.same

/-- Making the index anew, with members that read leaders, is no merge. -/
theorem Merged.reindexed (h : first.Merged a b memo) : first.Merged a b memo.reindexed where
  consistent := h.consistent.reindexed
  tidy := h.tidy
  size_groups := h.size_groups
  size_members := size_members_reindexed.trans h.size_members
  coarser := h.coarser
  member m hm := by
    obtain ⟨children, hread, hchildren⟩ := h.member m hm
    refine ⟨children.map memo.leader, ?_, ?_⟩
    · rw [member_reindexed (h.size_members ▸ hm), hread]
      rfl
    · show (children.map memo.leader).map memo.leader = (first.member m).children.map memo.leader
      rw [List.map_map, ← hchildren]
      exact List.map_congr_left fun g _ => h.consistent.led.leader_leader g
  minimal := h.minimal

section Absorb

variable {root victim : GroupId}

theorem coarsenedBy_absorb (hled : memo.Led) (hr : memo.parents[root]? = some root)
    (hv : memo.parents[victim]? = some victim) (hlt : root < victim) :
    memo.CoarsenedBy (memo.absorb root victim) := fun x y hxy => by
  rw [leader_absorb hled hr hv hlt, leader_absorb hled hr hv hlt, hxy]

/-- Two groups that every congruence relates may be merged. -/
theorem Merged.absorb (h : first.Merged a b memo) (hr : memo.parents[root]? = some root)
    (hv : memo.parents[victim]? = some victim) (hlt : root < victim)
    (htype : (memo.group root).rowType = (memo.group victim).rowType)
    (hrelated : ∀ r, first.IsCongruence a b r → r root victim) :
    first.Merged a b (memo.absorb root victim) := by
  have hled := h.consistent.led
  have hleader := leader_absorb hled hr hv hlt
  have hafter : (memo.absorb root victim).leader =
      (fun g => if g = victim then root else g) ∘ memo.leader := funext hleader
  constructor
  · exact consistent_absorb h.consistent hr hv hlt htype
  · exact fun htidy => (h.tidy htidy).absorb hr hv hlt
  · exact (size_absorb ..).trans h.size_groups
  · exact (Array.size_map ..).trans h.size_members
  · intro x y hxy
    exact coarsenedBy_absorb hled hr hv hlt x y (h.coarser x y hxy)
  · intro m hm
    obtain ⟨children, hread, hchildren⟩ := h.member m hm
    refine ⟨children, ?_, ?_⟩
    · rw [member_absorb (h.size_members ▸ hm), hread, hleader]
    · rw [hafter, ← List.map_map, hchildren, List.map_map]
  · -- a group of the victim is related to the victim, and this to the root
    intro r hcong x y hxy
    have hof : ∀ g, r g ((memo.absorb root victim).leader g) := by
      intro g
      rw [hleader]
      split
      · next hg =>
          refine hcong.equivalence.trans ?_ (hcong.equivalence.symm (hrelated r hcong))
          exact h.minimal r hcong g victim (hg.trans (leader_of_self hv).symm)
      · exact h.minimal r hcong _ _ (hled.leader_leader g).symm
    refine hcong.equivalence.trans (hof x) ?_
    rw [hxy]
    exact hcong.equivalence.symm (hof y)

/-- A merge makes one group fewer. -/
theorem groupCount_absorb (hled : memo.Led) (hv : memo.parents[victim]? = some victim)
    (hlt : root < victim) : (memo.absorb root victim).groupCount < memo.groupCount := by
  have hlive : ∀ g, (memo.absorb root victim).isLive g = (memo.isLive g && decide (g ≠ victim)) := by
    intro g
    unfold isLive
    show ((memo.parents.setIfInBounds victim root)[g]? == some g) = _
    by_cases hg : g = victim
    · rw [hg, Array.getElem?_setIfInBounds_self_of_lt (Array.getElem?_eq_some_iff.mp hv).1]
      simp [Nat.ne_of_lt hlt]
    · rw [Array.getElem?_setIfInBounds_ne (Ne.symm hg)]
      simp [hg]
  have hgroups : (memo.absorb root victim).liveGroups =
      memo.liveGroups.filter (fun g => decide (g ≠ victim)) := by
    unfold liveGroups
    rw [size_absorb, List.filter_filter]
    refine List.filter_congr fun g _ => ?_
    rw [hlive, Bool.and_comm]
  unfold groupCount
  rw [hgroups]
  refine List.length_filter_lt_length_iff_exists.mpr ⟨victim, hled.mem_liveGroups.mpr hv, ?_⟩
  simp

end Absorb

/-- There are no more live groups than groups. -/
theorem groupCount_le (memo : Memo ν) : memo.groupCount ≤ memo.groups.size :=
  Nat.le_trans (List.length_filter_le ..) (Nat.le_of_eq List.length_range)

/-- Two groups of the same row type that every congruence relates are the same after their union,
which makes one group fewer if they were not before. -/
theorem Merged.exists_union (h : first.Merged a b memo) {x y : GroupId} (hx : x < memo.groups.size)
    (hy : y < memo.groups.size) (htype : (memo.group x).rowType = (memo.group y).rowType)
    (hrelated : ∀ r, first.IsCongruence a b r → r x y) (origin : String) :
    ∃ after, (union x y origin).run.run memo = (.ok (), after) ∧ first.Merged a b after ∧
      memo.CoarsenedBy after ∧ after.leader x = after.leader y ∧
      (memo.leader x ≠ memo.leader y → after.groupCount < memo.groupCount) := by
  have hled := h.consistent.led
  rcases run_union_cases x y origin memo with ⟨hxy, hrun⟩ | ⟨root, victim, hlt, hends, hrun⟩
  · exact ⟨memo, hrun, h, fun _ _ hsame => hsame, hxy, fun hne => absurd hxy hne⟩
  -- the two ends of the pointers are related and of the same row type, as the two groups are
  have hends' : memo.parents[root]? = some root ∧ memo.parents[victim]? = some victim ∧
      (memo.group root).rowType = (memo.group victim).rowType ∧
      (∀ r, first.IsCongruence a b r → r root victim) := by
    have hlx := hled.parents_leader hx
    have hly := hled.parents_leader hy
    have htypes : (memo.group (memo.leader x)).rowType = (memo.group (memo.leader y)).rowType :=
      (rowType_congr (hled.leader_leader x)).trans
        (htype.trans (rowType_congr (hled.leader_leader y)).symm)
    have hrel : ∀ r, first.IsCongruence a b r → r (memo.leader x) (memo.leader y) :=
      fun r hr => hr.equivalence.trans (h.minimal r hr _ _ (hled.leader_leader x))
        (hr.equivalence.trans (hrelated r hr) (h.minimal r hr _ _ (hled.leader_leader y).symm))
    rcases hends with ⟨rfl, rfl⟩ | ⟨rfl, rfl⟩
    · exact ⟨hlx, hly, htypes, hrel⟩
    · exact ⟨hly, hlx, htypes.symm, fun r hr => hr.equivalence.symm (hrel r hr)⟩
  obtain ⟨hr, hv, htypes, hrel⟩ := hends'
  rw [if_neg (not_not_intro htypes)] at hrun
  refine ⟨memo.absorb root victim, hrun, h.absorb hr hv hlt htypes hrel,
    coarsenedBy_absorb hled hr hv hlt, ?_, fun _ => groupCount_absorb hled hv hlt⟩
  rw [leader_absorb hled hr hv hlt, leader_absorb hled hr hv hlt]
  rcases hends with ⟨hrx, hvy⟩ | ⟨hry, hvx⟩
  · rw [← hrx, ← hvy, if_neg (Nat.ne_of_lt hlt), if_pos rfl]
  · rw [← hry, ← hvx, if_neg (Nat.ne_of_lt hlt), if_pos rfl]

/-! ## Rebuilding -/

/-- Members of the same key read the same groups under the same operator, up to its literals. -/
theorem key_eq_iff (m m' : Member) : m.key = m'.key ↔ m.children = m'.children ∧
    m.convention = m'.convention ∧ m.inputs = m'.inputs ∧ m.op.canonical = m'.op.canonical := by
  unfold Member.key MemberKey.of
  rw [MemberKey.mk.injEq]

/-- Two lists of groups have the same leaders if their groups have, one by one. -/
theorem map_leader_eq_iff (children children' : List GroupId) :
    children.map memo.leader = children'.map memo.leader ↔
      List.Forall₂ (fun x y => memo.leader x = memo.leader y) children children' := by
  rw [← List.forall₂_eq_eq_eq, List.forall₂_map_left_iff, List.forall₂_map_right_iff]

/-- The groups of members of the same key have the same row type. -/
theorem Fits.rowType_eq_of_key {m m' : Member} (h : memo.Fits m) (h' : memo.Fits m')
    (hkey : m.key = m'.key) : (memo.group m.group).rowType = (memo.group m'.group).rowType := by
  obtain ⟨hchildren, -, -, hop⟩ := (key_eq_iff m m').mp hkey
  have htype := h.rowType
  rw [← Operator.deriveRowType_canonical, hop, Operator.deriveRowType_canonical, hchildren,
    h'.rowType] at htype
  exact (Except.ok.inj htype).symm

/-- The groups that a rebuild is going to merge are different ones, have the same row type, and are
related by every congruence. -/
theorem Merged.of_conflict (h : first.Merged a b memo) {x y : GroupId}
    (hsome : memo.conflict = some (x, y)) : x < memo.groups.size ∧ y < memo.groups.size ∧
      memo.leader x ≠ memo.leader y ∧ (memo.group x).rowType = (memo.group y).rowType ∧
      ∀ r, first.IsCongruence a b r → r x y := by
  obtain ⟨hne, m, hm, m', hm', hkey, rfl, rfl⟩ := exists_of_conflict h.consistent hsome
  have hled := h.consistent.led
  obtain ⟨hfits, -⟩ := h.consistent.member m hm
  obtain ⟨hfits', -⟩ := h.consistent.member m' hm'
  refine ⟨hfits.group_lt hled, hfits'.group_lt hled, ?_, ?_, ?_⟩
  · rwa [leader_of_self hfits.group_live, leader_of_self hfits'.group_live]
  · have hread := (h.reindexed.consistent.member m (size_members_reindexed.symm ▸ hm)).1
    have hread' := (h.reindexed.consistent.member m' (size_members_reindexed.symm ▸ hm')).1
    have htype := hread.rowType_eq_of_key hread' hkey
    rw [member_reindexed hm, member_reindexed hm'] at htype
    exact htype
  · -- what the members read has the same leaders, so that it is related, and so are their groups
    intro r hr
    obtain ⟨children, hread, hchildren⟩ := h.member m (h.size_members ▸ hm)
    obtain ⟨children', hread', hchildren'⟩ := h.member m' (h.size_members ▸ hm')
    rw [member_reindexed hm, member_reindexed hm', key_eq_iff, hread, hread'] at hkey
    dsimp only at hkey
    rw [hchildren, hchildren', map_leader_eq_iff] at hkey
    obtain ⟨hinputs, hconv, hins, hop⟩ := hkey
    have hgroups := hr.members m (h.size_members ▸ hm) m' (h.size_members ▸ hm') hop hconv hins
      (hinputs.imp fun x y hxy => h.minimal r hr x y hxy)
    rw [hread, hread']
    refine hr.equivalence.trans (h.minimal r hr _ _ (hled.leader_leader _)) ?_
    exact hr.equivalence.trans hgroups (h.minimal r hr _ _ (hled.leader_leader _).symm)

/-- A rebuild without a bound on its rounds: it makes the index anew, and stops if no two groups
are found to be the same, or else merges two that are and starts again. -/
inductive RebuildsTo (origin : String) : Memo ν → Memo ν → Prop
  | done {memo : Memo ν} (h : memo.conflict = none) : RebuildsTo origin memo memo.reindexed
  | again {memo between after : Memo ν} {x y : GroupId} (h : memo.conflict = some (x, y))
      (hunion : (union x y origin).run.run memo.reindexed = (.ok (), between))
      (hrest : RebuildsTo origin between after) : RebuildsTo origin memo after

/-- A rebuild ends, after fewer rounds than there are groups, without an error and in a settled
memo. -/
theorem Merged.exists_rebuildsTo (h : first.Merged a b memo) (origin : String) :
    ∃ after, RebuildsTo origin memo after ∧ first.Merged a b after ∧ after.Settled ∧
      memo.CoarsenedBy after ∧
      ∀ fuel, memo.groupCount < fuel → (rebuild origin fuel).run.run memo = (.ok (), after) := by
  induction hn : memo.groupCount using Nat.strongRecOn generalizing memo with
  | ind n ih =>
      rcases hc : memo.conflict with _ | ⟨x, y⟩
      · refine ⟨memo.reindexed, .done hc, h.reindexed, settled_reindexed h.consistent hc,
          fun _ _ hxy => hxy, fun fuel hfuel => ?_⟩
        obtain ⟨k, rfl⟩ := Nat.exists_eq_add_one_of_ne_zero (Nat.ne_zero_of_lt hfuel)
        rw [run_rebuild, hc]
      · obtain ⟨hx, hy, hne, htype, hrel⟩ := h.of_conflict hc
        obtain ⟨between, hunion, hmerged, hcoarser, -, hcount⟩ :=
          h.reindexed.exists_union hx hy htype hrel origin
        have hlt : between.groupCount < n := lt_of_lt_of_eq (hcount hne) hn
        obtain ⟨after, hafter, hmerged', hsettled, hcoarser', hruns⟩ := ih _ hlt hmerged rfl
        refine ⟨after, .again hc hunion hafter, hmerged', hsettled,
          fun _ _ hxy => hcoarser' _ _ (hcoarser _ _ hxy), fun fuel hfuel => ?_⟩
        obtain ⟨k, rfl⟩ := Nat.exists_eq_add_one_of_ne_zero (Nat.ne_zero_of_lt hfuel)
        rw [run_rebuild, hc]
        dsimp only
        rw [run_bind_of_ok hunion]
        exact hruns k (Nat.lt_of_lt_of_le hlt (Nat.le_of_lt_succ hfuel))

/-- However many rounds a rebuild is given, it does not fail. -/
theorem Merged.rebuild_ok (h : first.Merged a b memo) (origin : String) (fuel : Nat) :
    ∃ after, (rebuild origin fuel).run.run memo = (.ok (), after) := by
  induction fuel generalizing memo with
  | zero => exact ⟨memo, rfl⟩
  | succ fuel ih =>
      rw [run_rebuild]
      rcases hc : memo.conflict with _ | ⟨x, y⟩
      · exact ⟨memo.reindexed, rfl⟩
      · obtain ⟨hx, hy, -, htype, hrel⟩ := h.of_conflict hc
        obtain ⟨between, hunion, hmerged, -⟩ := h.reindexed.exists_union hx hy htype hrel origin
        dsimp only
        rw [run_bind_of_ok hunion]
        exact ih hmerged

/-- What is left by a merge that is carried through: the groups of the same leader are those that
the smallest congruence relates. -/
theorem Merged.isLeast {after : Memo ν} (h : first.Merged a b after) (hsettled : after.Settled)
    (hpair : after.leader a = after.leader b) :
    IsLeast {r | first.IsCongruence a b r} fun x y => after.leader x = after.leader y := by
  refine ⟨⟨⟨fun _ => rfl, Eq.symm, Eq.trans⟩, h.coarser, hpair, ?_⟩, fun r hr => h.minimal r hr⟩
  intro m hm m' hm' hop hconv hins hinputs
  have hread : ∀ i < first.members.size, (after.member i).group = after.leader (first.member i).group ∧
      (after.member i).children = (first.member i).children.map after.leader := by
    intro i hi
    have hlive := hsettled.map_leader (h.size_members.symm ▸ hi)
    obtain ⟨children, hread, hchildren⟩ := h.member i hi
    rw [hread] at hlive ⊢
    exact ⟨rfl, hlive.symm.trans hchildren⟩
  have hkey : (after.member m).key = (after.member m').key := by
    rw [key_eq_iff, (hread m hm).2, (hread m' hm').2]
    obtain ⟨_, hleft, -⟩ := h.member m hm
    obtain ⟨_, hright, -⟩ := h.member m' hm'
    rw [hleft, hright]
    exact ⟨(map_leader_eq_iff _ _).mpr hinputs, hconv, hins, hop⟩
  have hgroup := hsettled.group_eq_of_key (h.size_members.symm ▸ hm) (h.size_members.symm ▸ hm') hkey
  rwa [(hread m hm).1, (hread m' hm').1] at hgroup

/-! ## Merging -/

/-- A union of two groups that exist either fails, and changes nothing, or makes them the same. -/
theorem Consistent.union_cases (h : memo.Consistent) (ha : a < memo.groups.size)
    (hb : b < memo.groups.size) (origin : String) :
    (∃ expected actual,
      (union a b origin).run.run memo = (.error (.rowTypeMismatch origin expected actual), memo)) ∨
    ∃ between, (union a b origin).run.run memo = (.ok (), between) ∧ memo.Merged a b between ∧
      between.leader a = between.leader b := by
  by_cases htype : (memo.group a).rowType = (memo.group b).rowType
  · obtain ⟨between, hrun, hmerged, -, hpair, -⟩ :=
      (h.merged a b).exists_union ha hb htype (fun r hr => hr.pair) origin
    exact Or.inr ⟨between, hrun, hmerged, hpair⟩
  · refine Or.inl ?_
    rcases run_union_cases a b origin memo with ⟨hab, -⟩ | ⟨root, victim, -, hends, hrun⟩
    · exact absurd (rowType_congr hab) htype
    · have hne : (memo.group root).rowType ≠ (memo.group victim).rowType := by
        have hla := rowType_congr (h.led.leader_leader a)
        have hlb := rowType_congr (h.led.leader_leader b)
        rcases hends with ⟨rfl, rfl⟩ | ⟨rfl, rfl⟩
        · rwa [hla, hlb]
        · rw [hla, hlb]
          exact Ne.symm htype
      rw [if_pos hne] at hrun
      exact ⟨_, _, hrun⟩

/-- The key of a member over the groups that stand for its inputs. -/
def canonicalKey (memo : Memo ν) (m : MemberId) : MemberKey :=
  .of (memo.member m).op (memo.member m).convention ((memo.member m).children.map memo.leader)
    (memo.member m).inputs

/-- What a merge of `a` and `b` leaves when it is carried through: the groups that have the same
leader are those that the smallest congruence relates, all members are there still, and the index
has the key of each of them for a member of this key. -/
structure IsMergeOf (origin : String) (memo : Memo ν) (a b : GroupId) (after : Memo ν) : Prop where
  isLeast : IsLeast {r | memo.IsCongruence a b r} fun x y => after.leader x = after.leader y
  size_members : after.members.size = memo.members.size
  member : ∀ m < memo.members.size, ∃ children,
    after.member m = { memo.member m with
      group := after.leader (memo.member m).group, children := children } ∧
    children.map after.leader = (memo.member m).children.map after.leader
  key : ∀ m < after.members.size, (after.member m).key = after.canonicalKey m
  indexed : ∀ m < after.members.size, ∃ m' < after.members.size,
    after.index.get? (after.canonicalKey m) = some m' ∧
      after.canonicalKey m' = after.canonicalKey m
  ends : ∃ between, (union a b origin).run.run memo = (.ok (), between) ∧
    RebuildsTo origin between after

/-- Inputs of a settled memo stand for themselves, so that the keys of its members do. -/
theorem Settled.key_eq (h : memo.Settled) {m : MemberId} (hm : m < memo.members.size) :
    (memo.member m).key = memo.canonicalKey m := by
  unfold canonicalKey
  rw [h.map_leader hm]
  rfl

/-- A merge of two groups that exist either fails, and changes nothing, or is carried through. -/
theorem Settled.merge_cases (h : memo.Settled) (ha : a < memo.groups.size)
    (hb : b < memo.groups.size) (origin : String) :
    (∃ expected actual,
      (merge a b origin).run.run memo = (.error (.rowTypeMismatch origin expected actual), memo)) ∨
    ∃ after, (merge a b origin).run.run memo = (.ok (), after) ∧ memo.Merged a b after ∧
      after.Settled ∧ IsMergeOf origin memo a b after := by
  rcases h.union_cases ha hb origin with ⟨expected, actual, hrun⟩ | ⟨between, hrun, hmerged, hpair⟩
  · refine Or.inl ⟨expected, actual, ?_⟩
    rw [run_merge, hrun]
  · obtain ⟨after, hends, hafter, hsettled, hcoarser, hfuel⟩ := hmerged.exists_rebuildsTo origin
    refine Or.inr ⟨after, ?_, hafter, hsettled, ?_⟩
    · rw [run_merge, hrun]
      exact hfuel _ (Nat.lt_succ_of_le between.groupCount_le)
    · refine ⟨hafter.isLeast hsettled (hcoarser _ _ hpair), hafter.size_members, hafter.member,
        fun m hm => hsettled.key_eq hm, fun m hm => ?_, between, hrun, hends⟩
      obtain ⟨m', hm', -⟩ := hsettled.indexed m hm
      obtain ⟨hlt, hkey⟩ := hsettled.knows _ _ hm'
      refine ⟨m', hlt, ?_, ?_⟩
      · rw [← hsettled.key_eq hm, hm']
      · rw [← hsettled.key_eq hm, ← hsettled.key_eq hlt, hkey]

end Memo

end QueryPlanner
