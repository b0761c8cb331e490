/-
# Growing memos keep their meaning

Groups are merged only where they stand for the same bag, since the members that lead to a
merge have the same operator over inputs of the same bags; a new member is one that denotes the
bag of its group.

* `means_absorb` : a group may absorb another one of the same bag;
* `keeps_means_rebuild` : all merges that follow are of this kind;
* `keeps_means_addTo` : adding a member that denotes the bag of its group keeps the meaning;
* `means_addLogical` : a member in a group of its own gives the bag that it denotes a group.
-/
import QueryPlanner.Proofs.Memo.Meaning

namespace QueryPlanner

namespace Memo

variable {ν : Type} {source : RowSource} {den : GroupId → Bag} {memo : Memo ν}

/-! ## Merges -/

section Absorb

variable {root victim : GroupId}

/-- The groups that a merge makes one stand for the same bag. -/
theorem den_of_merged (h : memo.Means source den) (hden : den root = den victim) {g : GroupId}
    (hmerged : memo.leader g = victim ∨ memo.leader g = root) : den root = den g := by
  rw [← h.leader g]
  rcases hmerged with heq | heq
  · rw [heq, hden]
  · rw [heq]

/-- The members of a group after a merge were members of groups of the same bag. -/
theorem listed_absorb (h : memo.Means source den) (hr : memo.parents[root]? = some root)
    (hv : memo.parents[victim]? = some victim) (hlt : root < victim)
    (hden : den root = den victim) {g : GroupId} {m : MemberId}
    (hm : m ∈ ((memo.absorb root victim).group g).members) :
    m < memo.members.size ∧ den (memo.member m).group = den g := by
  rcases Nat.lt_or_ge g memo.groups.size with hg | hg
  · have hread := group_absorb h.led hr hv hlt hg
    split at hread
    · next hmerged =>
        rw [hread.2] at hm
        rw [← den_of_merged h hden hmerged]
        rcases List.mem_append.mp hm with hm | hm
        · exact h.listed root m hm
        · rw [hden]
          exact h.listed victim m hm
    · rw [hread] at hm
      exact h.listed g m hm
  · have hled : (memo.absorb root victim).Led := led_absorb h.led (Nat.le_of_lt hlt)
    rw [members_group_of_le (hled.le_leader ((size_absorb ..).trans_le hg))] at hm
    exact absurd hm List.not_mem_nil

/-- A group may absorb another one that stands for the same bag. -/
theorem means_absorb (h : memo.Means source den) (hr : memo.parents[root]? = some root)
    (hv : memo.parents[victim]? = some victim) (hlt : root < victim)
    (hden : den root = den victim) : (memo.absorb root victim).Means source den := by
  have hroot : root < memo.groups.size := h.led.parents_eq_some_iff_lt.mp ⟨root, hr⟩
  have hsize : (memo.absorb root victim).members.size = memo.members.size := Array.size_map ..
  -- the group of a member stands for the same bag as before
  have hgroup : ∀ g, den (if g = victim then root else g) = den g := by
    intro g
    split
    · next heq => rw [heq, hden]
    · rfl
  constructor
  · exact led_absorb h.led (Nat.le_of_lt hlt)
  · intro g
    rw [leader_absorb h.led hr hv hlt, hgroup, h.leader]
  · intro g hg
    rw [size_absorb] at hg
    have hread := group_absorb h.led hr hv hlt hg
    split at hread
    · next hmerged => rw [hread.1, h.rowType root hroot, den_of_merged h hden hmerged]
    · rw [hread]
      exact h.rowType g hg
  · intro g m hm
    have hold := listed_absorb h hr hv hlt hden hm
    rw [hsize, member_absorb hold.1, hgroup]
    exact hold
  · intro m hm
    rw [hsize] at hm
    obtain ⟨hmember, hid⟩ := h.member m hm
    rw [member_absorb hm, size_absorb]
    refine ⟨hmember.congr rfl rfl rfl ?_ (hgroup _) hmember.children_lt rfl, hid⟩
    dsimp only
    split
    · exact hroot
    · exact hmember.group_lt
  · intro key m hm
    obtain ⟨hlt, hindex⟩ := h.index key m hm
    rw [hsize, size_absorb, member_absorb hlt]
    exact ⟨hlt, hindex⟩

end Absorb

/-- A memo of `n` groups that stand for given bags. -/
def MeansOn (source : RowSource) (den : GroupId → Bag) (n : Nat) (memo : Memo ν) : Prop :=
  memo.Means source den ∧ memo.groups.size = n

/-- Groups of the same bag may be merged. -/
theorem keeps_means_union {n : Nat} {a b : GroupId} (ha : a < n) (hb : b < n)
    (hab : den a = den b) (origin : String) :
    Keeps (MeansOn source den n) (union a b origin : Edit ν Unit) := by
  rintro memo ⟨h, rfl⟩
  rcases run_union_cases a b origin memo with ⟨-, hrun⟩ | ⟨root, victim, hlt, hends, hrun⟩
  · rw [hrun]
    exact ⟨h, rfl⟩
  · have hla := h.led.parents_leader ha
    have hlb := h.led.parents_leader hb
    have hden : den (memo.leader a) = den (memo.leader b) := by rw [h.leader, h.leader, hab]
    rw [hrun]
    split
    · exact ⟨h, rfl⟩
    · refine ⟨?_, size_absorb ..⟩
      rcases hends with ⟨rfl, rfl⟩ | ⟨rfl, rfl⟩
      · exact means_absorb h hla hlb hlt hden
      · exact means_absorb h hlb hla hlt hden.symm

/-! ## Rebuilding the index -/

/-- Members may read the leaders of their inputs instead of these. -/
theorem means_readLeaders (h : memo.Means source den) : memo.readLeaders.Means source den := by
  have hsize : memo.readLeaders.members.size = memo.members.size := Array.size_map ..
  constructor
  · exact led_readLeaders h.led
  · exact h.leader
  · exact h.rowType
  · intro g m hm
    obtain ⟨hlt, hden⟩ := h.listed g m hm
    rw [hsize, member_readLeaders hlt]
    exact ⟨hlt, hden⟩
  · intro m hm
    rw [hsize] at hm
    obtain ⟨hmember, hid⟩ := h.member m hm
    rw [member_readLeaders hm]
    exact ⟨hmember.congr rfl rfl rfl hmember.group_lt rfl
      (h.leader_lt_of_mem hmember.children_lt) (h.map_leader _), hid⟩
  · intro key m hm
    obtain ⟨hlt, hop, hchildren, hkey⟩ := h.index key m hm
    rw [hsize, member_readLeaders hlt]
    exact ⟨hlt, hop, (h.map_leader _).trans hchildren, hkey⟩

theorem indexes_empty : memo.Indexes den {} := fun _ _ h => nomatch h

/-- A member may be entered under its own key. -/
theorem Indexes.insert {index : MemberIndex} (hindex : memo.Indexes den index) {key : MemberKey}
    {m : MemberId} (hm : m < memo.members.size) (hop : (memo.member m).op.canonical = key.op)
    (hchildren : (memo.member m).children.map den = key.children.map den)
    (hkey : ∀ g ∈ key.children, g < memo.groups.size) : memo.Indexes den (index.insert key m) := by
  intro other x hx
  rw [MemberIndex.get?_insert_member] at hx
  split at hx
  · next heq =>
      cases hx
      rw [← heq]
      exact ⟨hm, hop, hchildren, hkey⟩
  · exact hindex other x hx

/-- Entering members gives an index of them, and where two groups have a member of the same key
they stand for the same bag. -/
theorem indexes_enter (h : memo.Means source den) {members : List Member}
    (hmembers : ∀ m ∈ members, ∃ i < memo.members.size, m = memo.member i)
    {index : MemberIndex} (hindex : memo.Indexes den index) :
    memo.Indexes den (memo.enter members index).1 ∧
      ∀ a b, (memo.enter members index).2 = some (a, b) →
        a < memo.groups.size ∧ b < memo.groups.size ∧ den a = den b := by
  induction members generalizing index with
  | nil => exact ⟨hindex, fun a b hab => nomatch hab⟩
  | cons m rest ih =>
      obtain ⟨⟨i, hi, rfl⟩, hrest⟩ := List.forall_mem_cons.mp hmembers
      obtain ⟨hmember, hid⟩ := h.member i hi
      unfold enter
      split
      · refine ih hrest (hindex.insert ?_ ?_ ?_ hmember.children_lt)
        · rw [hid]
          exact hi
        · rw [hid]
          rfl
        · rw [hid]
          rfl
      · next first hfirst =>
          obtain ⟨hlt, hden⟩ := h.den_group_of_index hindex hmember.denotes hfirst
          dsimp only
          split
          · exact ih hrest hindex
          · refine ⟨hindex, fun a b hab => ?_⟩
            cases hab
            exact ⟨(h.member first hlt).1.group_lt, hmember.group_lt, hden⟩

/-- Another index of the members keeps the meaning. -/
theorem Means.withIndex (h : memo.Means source den) {index : MemberIndex}
    (hindex : memo.Indexes den index) : Means source den { memo with index := index } where
  led := h.led.of_eq rfl rfl
  leader := h.leader
  rowType := h.rowType
  listed := h.listed
  member := h.member
  index := hindex

/-- A rebuild makes an index of members of the same bag, and finds only groups of the same bag to
be the same. -/
theorem Means.reindexed (h : memo.Means source den) : memo.reindexed.Means source den ∧
    ∀ a b, memo.conflict = some (a, b) →
      a < memo.groups.size ∧ b < memo.groups.size ∧ den a = den b := by
  have hread := means_readLeaders h
  have hall : ∀ m ∈ memo.readLeaders.members.toList,
      ∃ i < memo.readLeaders.members.size, m = memo.readLeaders.member i := by
    intro m hm
    obtain ⟨i, hi, rfl⟩ := List.getElem_of_mem hm
    rw [Array.length_toList] at hi
    refine ⟨i, hi, ?_⟩
    unfold Memo.member
    rw [Array.getElem?_eq_getElem hi, Option.getD_some, Array.getElem_toList]
  obtain ⟨hindex, hconflict⟩ := indexes_enter hread hall indexes_empty
  exact ⟨hread.withIndex hindex, hconflict⟩

/-- All merges that follow from one are of groups of the same bag. -/
theorem keeps_means_rebuild {n : Nat} (origin : String) (fuel : Nat) :
    Keeps (MeansOn source den n) (rebuild origin fuel : Edit ν Unit) := by
  refine keeps_rebuild ?_ ?_ fuel
  · rintro memo ⟨h, hsize⟩
    exact ⟨h.reindexed.1, hsize⟩
  · rintro memo a b ⟨h, rfl⟩ hsome
    obtain ⟨ha, hb, hab⟩ := h.reindexed.2 a b hsome
    exact keeps_means_union ha hb hab origin _ ⟨h.reindexed.1, rfl⟩

theorem keeps_means_merge {n : Nat} {a b : GroupId} (ha : a < n) (hb : b < n)
    (hab : den a = den b) (origin : String) :
    Keeps (MeansOn source den n) (merge a b origin : Edit ν Unit) :=
  (keeps_means_union ha hb hab origin).bind fun _ =>
    keeps_get.bind fun memo => keeps_means_rebuild origin (memo.groups.size + 1)

/-! ## New members -/

section Push

variable {g : GroupId} {op : Operator} {c : Convention} {children : List GroupId}
  {inputs : List Convention}

/-- A member that denotes the bag of a group may be added to the group. -/
theorem means_pushMember (h : memo.Means source den) (hg : g < memo.groups.size)
    (hlt : ∀ child ∈ children, child < memo.groups.size)
    (hop : Operator.Denotes source op (children.map den) (den g))
    (himplemented : c.isLogical = false → IsImplemented op c inputs) :
    (memo.pushMember g op c children inputs).Means source den := by
  have hlead := h.led.leader_lt hg
  have hgroups : (memo.pushMember g op c children inputs).groups.size = memo.groups.size :=
    Array.size_modify ..
  have hmembers : (memo.pushMember g op c children inputs).members.size = memo.members.size + 1 :=
    Array.size_push ..
  have hold : ∀ m < memo.members.size,
      (memo.pushMember g op c children inputs).member m = memo.member m := fun m hm => by
    rw [member_pushMember, if_neg (Nat.ne_of_lt hm)]
  have hindexed : Indexes den (memo.pushMember g op c children inputs) memo.index := by
    intro key m hm
    obtain ⟨hltm, hread⟩ := h.index key m hm
    rw [hmembers, hold m hltm, hgroups]
    exact ⟨Nat.lt_succ_of_lt hltm, hread⟩
  constructor
  · exact led_pushMember h.led g op c children inputs
  · exact h.leader
  · intro other hother
    rw [hgroups] at hother
    rw [group_pushMember hlead]
    split
    · exact h.rowType other hother
    · exact h.rowType other hother
  -- the new member shows in the groups that share a leader with `g`
  · intro other m hm
    rw [group_pushMember hlead] at hm
    rw [hmembers]
    have hlisted : m ∈ (memo.group other).members →
        m < memo.members.size + 1 ∧
          den ((memo.pushMember g op c children inputs).member m).group = den other := by
      intro hm
      obtain ⟨hltm, hden⟩ := h.listed other m hm
      rw [hold m hltm]
      exact ⟨Nat.lt_succ_of_lt hltm, hden⟩
    split at hm
    · next heq =>
        rcases List.mem_append.mp hm with hm | hm
        · exact hlisted hm
        · rw [List.mem_singleton] at hm
          rw [hm, member_pushMember, if_pos rfl, ← h.leader g, ← heq, h.leader]
          exact ⟨Nat.lt_succ_self _, rfl⟩
    · exact hlisted hm
  · intro m hm
    rw [hmembers] at hm
    rw [hgroups]
    rcases Nat.lt_succ_iff_lt_or_eq.mp hm with hm | rfl
    · rw [hold m hm]
      exact h.member m hm
    · rw [member_pushMember, if_pos rfl]
      exact ⟨⟨hg, hlt, hop, himplemented⟩, rfl⟩
  · refine hindexed.insert ?_ ?_ ?_ ?_
    · rw [hmembers]
      exact Nat.lt_succ_self _
    · rw [member_pushMember, if_pos rfl]
      rfl
    · rw [member_pushMember, if_pos rfl]
      rfl
    · rw [hgroups]
      exact hlt

/-- Adding a member that denotes the bag of its group keeps the meaning, with all the merges it
brings. -/
theorem keeps_means_addTo {n : Nat} (hg : g < n) (hlt : ∀ child ∈ children, child < n)
    (hop : Operator.Denotes source op (children.map den) (den g))
    (himplemented : c.isLogical = false → IsImplemented op c inputs) (origin : String) :
    Keeps (MeansOn source den n) (addTo g op c children inputs origin : Edit ν MemberId) := by
  refine keeps_get_bind fun memo h => ?_
  obtain ⟨hmeans, rfl⟩ := h
  have hlead := hmeans.led.leader_lt hg
  have hchildren := hmeans.leader_lt_of_mem hlt
  have hdenotes : Operator.Denotes source op ((children.map memo.leader).map den)
      (den (memo.leader g)) := by
    rw [hmeans.map_leader, hmeans.leader]
    exact hop
  dsimp only
  split
  · next m hm =>
      obtain ⟨hltm, hden⟩ := hmeans.den_group_of_index hmeans.index hdenotes hm
      split
      · exact (keeps_means_merge (hmeans.member m hltm).1.group_lt hlead hden origin).bind
          (fun _ => keeps_pure _) _ ⟨hmeans, rfl⟩
      · exact ⟨hmeans, rfl⟩
  · rw [run_bind]
    rcases memo.deriveRowType op (children.map memo.leader) inputs with e | t
    · exact ⟨hmeans, rfl⟩
    · show MeansOn source den _ ((if _ then _ else _ : Edit ν _).run.run memo).2
      split
      · exact ⟨hmeans, rfl⟩
      · exact ⟨means_pushMember hmeans hlead hchildren hdenotes himplemented, Array.size_modify ..⟩

end Push

/-! ## New groups -/

/-- The bags that groups stand for once group `n` stands for a further one. -/
def withBag (den : GroupId → Bag) (n : Nat) (b : Bag) (g : GroupId) : Bag :=
  if g = n then b else den g

theorem withBag_of_lt {n : Nat} {b : Bag} {g : GroupId} (hg : g < n) : withBag den n b g = den g :=
  if_neg (Nat.ne_of_lt hg)

theorem withBag_self {n : Nat} {b : Bag} : withBag den n b n = b := if_pos rfl

/-- A new group may stand for any bag of its row type. -/
theorem means_pushGroup (h : memo.Means source den) (b : Bag) :
    (memo.pushGroup b.rowType).Means source (withBag den memo.groups.size b) := by
  have hgroups : (memo.pushGroup b.rowType).groups.size = memo.groups.size + 1 := Array.size_push ..
  have hleader := fun g => leader_pushGroup memo b.rowType g h.led.size
  have hold : ∀ g < memo.groups.size, withBag den memo.groups.size b g = den g :=
    fun g hg => withBag_of_lt hg
  constructor
  · exact led_pushGroup h.led b.rowType
  · intro g
    rw [hleader]
    split
    · rfl
    · next hne =>
        -- groups that do not exist stand for themselves, the new one among them
        rcases Nat.lt_or_ge g memo.groups.size with hg | hg
        · rw [hold _ (h.led.leader_lt hg), hold g hg, h.leader]
        · rw [leader_of_none (Array.getElem?_eq_none (h.led.size.trans_le hg))]
  · intro g hg
    by_cases heq : g = memo.groups.size
    · rw [heq, group_pushGroup_self h.led, withBag_self]
    · have hlt : g < memo.groups.size := by omega
      rw [group_pushGroup h.led _ g heq, hold g hlt]
      exact h.rowType g hlt
  · intro g m hm
    by_cases heq : g = memo.groups.size
    · rw [heq, group_pushGroup_self h.led] at hm
      exact absurd hm List.not_mem_nil
    · rw [group_pushGroup h.led _ g heq] at hm
      obtain ⟨hlt, hden⟩ := h.listed g m hm
      have hgroup := hold _ (h.member m hlt).1.group_lt
      refine ⟨hlt, ?_⟩
      show withBag den memo.groups.size b (memo.member m).group = _
      rcases Nat.lt_or_ge g memo.groups.size with hg | hg
      · rw [hgroup, hold g hg, hden]
      · rw [members_group_of_le (h.led.le_leader hg)] at hm
        exact absurd hm List.not_mem_nil
  · intro m hm
    obtain ⟨hmember, hid⟩ := h.member m hm
    rw [hgroups]
    exact ⟨hmember.mono (Nat.le_succ _) hold, hid⟩
  · intro key m hm
    obtain ⟨hlt, hop, hchildren, hkey⟩ := h.index key m hm
    refine ⟨hlt, hop, ?_, fun g hg => ?_⟩
    · have hmember := (h.member m hlt).1.children_lt
      rw [List.map_congr_left fun g hg => hold g (hkey g hg), ← hchildren]
      exact List.map_congr_left fun g hg => hold g (hmember g hg)
    · rw [hgroups]
      exact Nat.lt_succ_of_lt (hkey g hg)

/-- A memo that goes on from one of `n` groups that stood for given bags, and still do. -/
structure Continues (source : RowSource) (den : GroupId → Bag) (n : Nat) (memo : Memo ν)
    (den' : GroupId → Bag) : Prop where
  means : memo.Means source den'
  size : n ≤ memo.groups.size
  agree : ∀ g < n, den' g = den g

theorem Means.continues (h : memo.Means source den) :
    Continues source den memo.groups.size memo den := ⟨h, Nat.le_refl _, fun _ _ => rfl⟩

theorem Continues.trans {n : Nat} {after : Memo ν} {den' den'' : GroupId → Bag}
    (h : Continues source den n memo den')
    (hafter : Continues source den' memo.groups.size after den'') :
    Continues source den n after den'' where
  means := hafter.means
  size := h.size.trans hafter.size
  agree g hg := (hafter.agree g (Nat.lt_of_lt_of_le hg h.size)).trans (h.agree g hg)

/-- Adding a logical operator gives the bag that it denotes a group, an old one or a new one. -/
theorem means_addLogical (h : memo.Means source den) {op : Operator} {children : List GroupId}
    {out : Bag} (hlt : ∀ g ∈ children, g < memo.groups.size)
    (hop : Operator.Denotes source op (children.map den) out)
    {r : Except (OptimizationError ν) GroupId} {after : Memo ν}
    (hrun : (addLogical op children).run.run memo = (r, after)) :
    ∃ den', Continues source den memo.groups.size after den' ∧
      ∀ g, r = .ok g → g < after.groups.size ∧ den' g = out := by
  have hchildren := h.leader_lt_of_mem hlt
  have hdenotes : Operator.Denotes source op ((children.map memo.leader).map den) out := by
    rw [h.map_leader]
    exact hop
  unfold addLogical at hrun
  rw [run_bind, run_add] at hrun
  rcases hindex : memo.index.get? (.of op .logical (children.map memo.leader)
    (children.map fun _ => .logical)) with _ | m
  · rw [hindex] at hrun
    rcases htype : memo.deriveRowType op (children.map memo.leader)
      (children.map fun _ => .logical) with e | t
    · rw [htype] at hrun
      cases hrun
      exact ⟨den, h.continues, fun g hg => nomatch hg⟩
    · rw [htype] at hrun
      cases hrun
      obtain rfl := h.deriveRowType hchildren hdenotes htype
      have hgroups : (memo.pushGroup out.rowType).groups.size = memo.groups.size + 1 :=
        Array.size_push ..
      refine ⟨withBag den memo.groups.size out, ⟨?_, ?_, fun g hg => withBag_of_lt hg⟩, ?_⟩
      · -- the operator's inputs are old groups, whose bags are what they were
        refine means_pushMember (means_pushGroup h out) ?_ ?_ ?_ fun hl => nomatch hl
        · rw [hgroups]
          exact Nat.lt_succ_self _
        · intro g hg
          rw [hgroups]
          exact Nat.lt_succ_of_lt (hchildren g hg)
        · rw [withBag_self, List.map_congr_left fun g hg => withBag_of_lt (hchildren g hg)]
          exact hdenotes
      · exact (Nat.le_succ _).trans_eq (hgroups.symm.trans (Array.size_modify ..).symm)
      · intro g hg
        cases hg
        exact ⟨(Nat.lt_succ_self _).trans_eq (hgroups.symm.trans (Array.size_modify ..).symm),
          withBag_self⟩
  · rw [hindex] at hrun
    cases hrun
    obtain ⟨hltm, hden⟩ := h.den_group_of_index h.index hdenotes hindex
    refine ⟨den, h.continues, fun g hg => ?_⟩
    cases hg
    exact ⟨(h.member m hltm).1.group_lt, hden⟩

end Memo

end QueryPlanner
