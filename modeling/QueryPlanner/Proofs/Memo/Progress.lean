/-
# How memos grow

Whatever is done to a memo, nothing that was in it goes: members stay, with the groups that stand
for their own and for their inputs, groups that were merged stay merged, and what was required of a
group stays required. What is known of a memo for its members alone is therefore known of all memos
that it grows to.

* `GrowsTo` : a memo came of another one;
* `GrowsTo.trans` : growing goes on;
* `GrowsTo.mem_group_iff_of_still` : without new members and merges, the groups are what they were;
* `Settled.growsTo_merge`, `Settled.growsTo_pushMember` : each operation makes a memo grow;
* `Has`, `AddsTo` : what a group has, and what a memo grew by;
* `Settled.returns_addTo`, `Settled.returns_addLogical` : what adding a member leaves;
* `Settled.size_of_returns_addTo`, `Settled.size_of_returns_addLogical` : a new member is for a key
  that there was none for.
-/
import QueryPlanner.Proofs.Memo.Calls

namespace QueryPlanner

/-- Requiring conventions adds these to what is required. -/
theorem Group.mem_required_foldl {ν : Type} {g : Group ν} {required : List Convention}
    {c : Convention} :
    c ∈ (required.foldl Group.require g).required ↔ c ∈ required ∨ c ∈ g.required := by
  induction required generalizing g with
  | nil => simp
  | cons d rest ih =>
      rw [List.foldl_cons, ih, Group.mem_required_require, List.mem_cons]
      tauto

namespace Memo

variable {ν : Type} {memo before mid after : Memo ν}

/-! ## Growing -/

/-- A memo came of another one: no group or member goes, and no merge or requirement is undone;
and unless there are more members or merges, the groups are the same. -/
structure GrowsTo (before after : Memo ν) : Prop where
  settled : after.Settled
  groups : before.groups.size ≤ after.groups.size
  merges : before.merges ≤ after.merges
  coarser : before.CoarsenedBy after
  members : before.members.size ≤ after.members.size
  member : ∀ m < before.members.size, ∃ applied, after.member m = { before.member m with
      group := after.leader (before.member m).group
      children := (before.member m).children.map after.leader
      applied := applied } ∧ ∀ rule ∈ (before.member m).applied, rule ∈ applied
  rowType : ∀ g < before.groups.size, (after.group g).rowType = (before.group g).rowType
  required : ∀ g, ∀ c ∈ (before.group g).required, c ∈ (after.group g).required
  still : after.members.size = before.members.size → after.merges = before.merges →
    after.groups.size = before.groups.size ∧ ∀ g, after.leader g = before.leader g

/-- A group that does not exist is required in no convention. -/
theorem lt_of_mem_required (hled : memo.Led) {g : GroupId} {c : Convention}
    (h : c ∈ (memo.group g).required) : g < memo.groups.size := by
  by_contra hge
  unfold group at h
  rw [Array.getElem?_eq_none (hled.le_leader (Nat.le_of_not_lt hge))] at h
  exact List.not_mem_nil h

/-- Groups of the same leader are required in the same conventions. -/
theorem required_congr {g other : GroupId} (hl : memo.leader g = memo.leader other) :
    (memo.group g).required = (memo.group other).required := by
  unfold group
  rw [hl]
  rcases memo.groups[memo.leader other]? with _ | x
  · rfl
  · rfl

theorem Settled.member_eq (h : memo.Settled) {m : MemberId} (hm : m < memo.members.size) :
    memo.member m = { memo.member m with
      group := memo.leader (memo.member m).group
      children := (memo.member m).children.map memo.leader } := by
  rw [leader_of_self (h.member m hm).1.group_live, h.map_leader hm]

theorem Settled.growsTo_self (h : memo.Settled) : memo.GrowsTo memo where
  settled := h
  groups := Nat.le_refl _
  merges := Nat.le_refl _
  coarser _ _ hxy := hxy
  members := Nat.le_refl _
  member m hm := ⟨(memo.member m).applied, h.member_eq hm, fun _ hrule => hrule⟩
  rowType _ _ := rfl
  required _ _ hc := hc
  still _ _ := ⟨rfl, fun _ => rfl⟩

namespace GrowsTo

/-- The leader of a former leader is that of the group which this stood for. -/
theorem leader_leader (h : before.GrowsTo after) (hled : before.Led) (g : GroupId) :
    after.leader (before.leader g) = after.leader g :=
  h.coarser _ _ (hled.leader_leader g)

theorem map_leader_leader (h : before.GrowsTo after) (hled : before.Led) (gs : List GroupId) :
    (gs.map before.leader).map after.leader = gs.map after.leader := by
  rw [List.map_map]
  exact List.map_congr_left fun g _ => h.leader_leader hled g

theorem trans (h : before.GrowsTo mid) (h' : mid.GrowsTo after) : before.GrowsTo after where
  settled := h'.settled
  groups := Nat.le_trans h.groups h'.groups
  merges := Nat.le_trans h.merges h'.merges
  coarser x y hxy := h'.coarser x y (h.coarser x y hxy)
  members := Nat.le_trans h.members h'.members
  member m hm := by
    obtain ⟨applied, hread, happlied⟩ := h.member m hm
    obtain ⟨applied', hread', happlied'⟩ := h'.member m (Nat.lt_of_lt_of_le hm h.members)
    rw [hread] at hread' happlied'
    refine ⟨applied', ?_, fun rule hrule => happlied' rule (happlied rule hrule)⟩
    rw [hread']
    dsimp only
    rw [h'.leader_leader h.settled.led, h'.map_leader_leader h.settled.led]
  rowType g hg := (h'.rowType g (Nat.lt_of_lt_of_le hg h.groups)).trans (h.rowType g hg)
  required g c hc := h'.required g c (h.required g c hc)
  still hmembers hmerges := by
    -- what does not change from the first memo to the last does not change in between
    have hmembers' := Nat.le_antisymm (hmembers ▸ h'.members) h.members
    have hmerges' := Nat.le_antisymm (hmerges ▸ h'.merges) h.merges
    obtain ⟨hsize, hleader⟩ := h.still hmembers' hmerges'
    obtain ⟨hsize', hleader'⟩ := h'.still (hmembers.trans hmembers'.symm) (hmerges.trans hmerges'.symm)
    exact ⟨hsize'.trans hsize, fun g => (hleader' g).trans (hleader g)⟩

section Member

variable (h : before.GrowsTo after) {m : MemberId} (hm : m < before.members.size)

include h hm

theorem lt : m < after.members.size := Nat.lt_of_lt_of_le hm h.members

theorem op_eq : (after.member m).op = (before.member m).op := by
  obtain ⟨applied, hread, -⟩ := h.member m hm
  rw [hread]

theorem convention_eq : (after.member m).convention = (before.member m).convention := by
  obtain ⟨applied, hread, -⟩ := h.member m hm
  rw [hread]

theorem inputs_eq : (after.member m).inputs = (before.member m).inputs := by
  obtain ⟨applied, hread, -⟩ := h.member m hm
  rw [hread]

theorem group_eq : (after.member m).group = after.leader (before.member m).group := by
  obtain ⟨applied, hread, -⟩ := h.member m hm
  rw [hread]

theorem children_eq : (after.member m).children = (before.member m).children.map after.leader := by
  obtain ⟨applied, hread, -⟩ := h.member m hm
  rw [hread]

theorem isLogical_eq : (after.member m).isLogical = (before.member m).isLogical := by
  unfold Member.isLogical
  rw [h.convention_eq hm]

omit hm in
/-- A rule that was applied to a member stays applied. -/
theorem wasApplied {hash : UInt64} (hm : before.wasApplied m hash = true) :
    after.wasApplied m hash = true := by
  unfold Memo.wasApplied at hm ⊢
  rw [List.contains_iff_mem] at hm ⊢
  have hlt : m < before.members.size := by
    by_contra hge
    unfold Memo.member at hm
    rw [Array.getElem?_eq_none (Nat.le_of_not_lt hge)] at hm
    exact List.not_mem_nil hm
  obtain ⟨applied, hread, happlied⟩ := h.member m hlt
  rw [hread]
  exact happlied hash hm

end Member

/-- A member of a group stays one. -/
theorem mem_group (h : before.GrowsTo after) (hsettled : before.Settled) {g : GroupId} {m : MemberId}
    (hm : m ∈ (before.group g).members) : m ∈ (after.group g).members := by
  obtain ⟨hg, hlt, hgroup⟩ := hsettled.mem_group_iff.mp hm
  refine h.settled.mem_group_iff.mpr ⟨Nat.lt_of_lt_of_le hg h.groups, h.lt hlt, ?_⟩
  rw [h.group_eq hlt, hgroup, h.leader_leader hsettled.led]

/-- Without new members and merges, groups have the members that they had. -/
theorem mem_group_iff_of_still (h : before.GrowsTo after) (hsettled : before.Settled)
    (hmembers : after.members.size = before.members.size) (hmerges : after.merges = before.merges)
    {g : GroupId} {m : MemberId} :
    m ∈ (after.group g).members ↔ m ∈ (before.group g).members := by
  obtain ⟨hsize, hleader⟩ := h.still hmembers hmerges
  rw [h.settled.mem_group_iff, hsettled.mem_group_iff, hsize, hmembers, hleader]
  refine and_congr_right fun _ => and_congr_right fun hm => ?_
  rw [h.group_eq hm, hleader, leader_of_self (hsettled.member m hm).1.group_live]

/-- Without new members and merges, members read the groups that they read. -/
theorem children_eq_of_still (h : before.GrowsTo after) (hsettled : before.Settled)
    (hmembers : after.members.size = before.members.size) (hmerges : after.merges = before.merges)
    {m : MemberId} (hm : m < before.members.size) :
    (after.member m).children = (before.member m).children := by
  rw [h.children_eq hm, funext (h.still hmembers hmerges).2, hsettled.map_leader hm]

/-- Without new members and merges, the same groups are live. -/
theorem liveGroups_eq_of_still (h : before.GrowsTo after) (hled : before.Led)
    (hmembers : after.members.size = before.members.size) (hmerges : after.merges = before.merges) :
    after.liveGroups = before.liveGroups := by
  obtain ⟨hsize, hleader⟩ := h.still hmembers hmerges
  have hlive : ∀ {memo : Memo ν}, memo.Led → ∀ g < memo.groups.size,
      memo.isLive g = decide (memo.leader g = g) := by
    intro memo hled g hg
    rw [Bool.eq_iff_iff, isLive_iff, decide_eq_true_iff]
    exact ⟨leader_of_self, fun heq => heq ▸ hled.parents_leader hg⟩
  unfold liveGroups
  rw [hsize]
  refine List.filter_congr fun g hg => ?_
  have hlt := List.mem_range.mp hg
  rw [hlive h.settled.led g (hsize ▸ hlt), hlive hled g hlt, hleader]

end GrowsTo

/-! ## Notes -/

/-- Notes that are neither on row types nor on members or requirements make no difference. -/
theorem Settled.growsTo_of_sameUpTo (h : memo.Settled) {note : Group ν → Group ν}
    (hsame : SameUpTo note after memo) (hnote : ∀ x, (note x).rowType = x.rowType ∧
      (note x).members = x.members) (hrequired : ∀ g, ∀ c ∈ (memo.group g).required,
        c ∈ (after.group g).required) : memo.GrowsTo after where
  settled := h.of_sameUpTo hsame hnote
  groups := Nat.le_of_eq hsame.size.symm
  merges := Nat.le_of_eq hsame.merges.symm
  coarser x y hxy := by rw [hsame.leader, hsame.leader, hxy]
  members := Nat.le_of_eq (congrArg Array.size hsame.members.symm)
  member m hm := by
    refine ⟨(memo.member m).applied, ?_, fun _ hrule => hrule⟩
    rw [hsame.member, hsame.leader, funext hsame.leader]
    exact h.member_eq hm
  rowType g _ := by
    rw [← (hnote (after.group g)).1, hsame.group, (hnote _).1]
  required := hrequired
  still _ _ := ⟨hsame.size, hsame.leader⟩

/-- What is required of a group is required of all the groups that it stands for. -/
theorem mem_required_require (hled : memo.Led) {g other : GroupId} {c d : Convention}
    (hg : g < memo.groups.size) : d ∈ ((memo.require g c).group other).required ↔
      d ∈ (memo.group other).required ∨ memo.leader other = memo.leader g ∧ d = c := by
  unfold require
  rw [group_modifyGroup (hled.leader_lt hg)]
  split
  · next heq =>
      rw [Group.mem_required_require]
      simp [heq, or_comm]
  · next hne => simp [hne]

theorem sameUpTo_require (memo : Memo ν) (g : GroupId) (c : Convention) :
    SameUpTo (fun x => { x with required := [] }) (memo.require g c) memo :=
  sameUpTo_modifyGroup g fun x => by
    unfold Group.require
    split
    · rfl
    · rfl

/-- Requirements may be added. -/
theorem Settled.growsTo_require (h : memo.Settled) (g : GroupId) (c : Convention) :
    memo.GrowsTo (memo.require g c) := by
  refine h.growsTo_of_sameUpTo (memo.sameUpTo_require g c) (fun _ => ⟨rfl, rfl⟩) fun other d hd => ?_
  unfold require group modifyGroup at *
  show d ∈ ((memo.groups.modify (memo.leader g) _)[memo.leader other]?.getD _).required
  rw [Array.getElem?_modify]
  split
  · rcases hread : memo.groups[memo.leader other]? with _ | x
    · rw [hread] at hd
      exact hd
    · rw [hread] at hd
      exact (Group.mem_required_require x c d).mpr (Or.inr hd)
  · exact hd

/-- Marking a rule as applied takes no mark away. -/
theorem mem_applied_markApplied (memo : Memo ν) (m i : MemberId) (hash : UInt64) :
    ∀ other ∈ (memo.member i).applied, other ∈ ((memo.markApplied m hash).member i).applied := by
  intro other hother
  unfold markApplied member at *
  rw [Array.getElem?_modify]
  split
  · next heq =>
      subst heq
      rcases hread : memo.members[m]? with _ | x
      · rwa [hread] at hother
      · rw [hread] at hother
        exact List.mem_cons_of_mem hash hother
  · exact hother

/-- Rules may be marked as applied. -/
theorem Settled.growsTo_markApplied (h : memo.Settled) (m : MemberId) (hash : UInt64) :
    memo.GrowsTo (memo.markApplied m hash) where
  settled := h.markApplied m hash
  groups := Nat.le_refl _
  merges := Nat.le_refl _
  coarser _ _ hxy := hxy
  members := Nat.le_of_eq (Array.size_modify ..).symm
  member i hi := by
    obtain ⟨applied, hread⟩ := memo.member_markApplied m i hash
    have happlied := memo.mem_applied_markApplied m i hash
    rw [hread] at happlied ⊢
    refine ⟨applied, ?_, happlied⟩
    conv_lhs => rw [h.member_eq hi]
    rfl
  rowType _ _ := rfl
  required _ _ hc := hc
  still _ _ := ⟨rfl, fun _ => rfl⟩

/-! ## New members -/

section Push

variable {g : GroupId} {op : Operator} {c : Convention} {children : List GroupId}
  {inputs : List Convention}

theorem Settled.growsTo_pushMember (h : memo.Settled) (hg : memo.leader g < memo.groups.size)
    (hafter : (memo.pushMember g op c children inputs).Settled) :
    memo.GrowsTo (memo.pushMember g op c children inputs) where
  settled := hafter
  groups := Nat.le_of_eq (Array.size_modify ..).symm
  merges := Nat.le_refl _
  coarser _ _ hxy := hxy
  members := Nat.le_of_succ_le (Nat.le_of_eq (Array.size_push ..).symm)
  member m hm := by
    refine ⟨(memo.member m).applied, ?_, fun _ hrule => hrule⟩
    rw [member_pushMember, if_neg (Nat.ne_of_lt hm)]
    exact h.member_eq hm
  rowType other _ := by
    rw [group_pushMember hg]
    split
    · rfl
    · rfl
  required other d hd := by
    rw [group_pushMember hg]
    split
    · exact hd
    · exact hd
  still hmembers := by
    rw [show (memo.pushMember g op c children inputs).members.size = memo.members.size + 1 from
      Array.size_push ..] at hmembers
    exact absurd hmembers (Nat.succ_ne_self _)

/-- Before a group was made, its number stood for itself, as it does afterwards. -/
theorem Led.leader_pushGroup_eq (hled : memo.Led) (t : RowType) (g : GroupId) :
    (memo.pushGroup t).leader g = memo.leader g := by
  rw [leader_pushGroup memo t g hled.size]
  split
  · next heq =>
      rw [leader_of_none (Array.getElem?_eq_none (Nat.le_of_eq (hled.size.trans heq.symm)))]
  · rfl

/-- A member in a group of its own makes a memo grow. -/
theorem Settled.growsTo_pushGroup_pushMember (h : memo.Settled) {t : RowType}
    (hafter : ((memo.pushGroup t).pushMember memo.groups.size op c children inputs).Settled) :
    memo.GrowsTo ((memo.pushGroup t).pushMember memo.groups.size op c children inputs) := by
  have hsize : (memo.pushGroup t).groups.size = memo.groups.size + 1 := Array.size_push ..
  have hleader : ∀ g, ((memo.pushGroup t).pushMember memo.groups.size op c children inputs).leader g =
      memo.leader g := h.led.leader_pushGroup_eq t
  have hself := leader_pushGroup_self h.led t
  have hlead := leader_pushGroup_self_lt h.led t
  -- the groups that there were do not show the new one
  have hold : ∀ g < memo.groups.size,
      ((memo.pushGroup t).pushMember memo.groups.size op c children inputs).group g =
        memo.group g := by
    intro g hg
    rw [group_pushMember hlead, if_neg, group_pushGroup h.led t g (Nat.ne_of_lt hg)]
    rw [leader_pushGroup memo t g h.led.size, if_neg (Nat.ne_of_lt hg), hself]
    exact Nat.ne_of_lt (h.led.leader_lt hg)
  constructor
  · exact hafter
  · exact Nat.le_of_succ_le (Nat.le_of_eq (hsize.symm.trans (Array.size_modify ..).symm))
  · exact Nat.le_refl _
  · intro x y hxy
    rw [hleader, hleader, hxy]
  · exact Nat.le_of_succ_le (Nat.le_of_eq (Array.size_push ..).symm)
  · intro m hm
    refine ⟨(memo.member m).applied, ?_, fun _ hrule => hrule⟩
    have hread : ((memo.pushGroup t).pushMember memo.groups.size op c children inputs).member m =
        memo.member m := (member_pushMember m).trans (if_neg (Nat.ne_of_lt hm))
    rw [funext hleader, hread]
    exact h.member_eq hm
  · intro g hg
    rw [hold g hg]
  · intro g d hd
    rw [hold g (lt_of_mem_required h.led hd)]
    exact hd
  · intro hmembers
    rw [show ((memo.pushGroup t).pushMember memo.groups.size op c children inputs).members.size =
      memo.members.size + 1 from Array.size_push ..] at hmembers
    exact absurd hmembers (Nat.succ_ne_self _)

end Push

/-! ## Merges -/

/-- A merge keeps what neither a new index nor the absorption of a group of the same row type takes
away. -/
theorem keeps_merge {P : Memo ν → Prop} {n : Nat}
    (hreindexed : ∀ memo, memo.Consistent → P memo → P memo.reindexed)
    (habsorb : ∀ memo root victim, memo.Consistent → memo.parents[root]? = some root →
      memo.parents[victim]? = some victim → root < victim →
      (memo.group root).rowType = (memo.group victim).rowType → P memo →
      P (memo.absorb root victim)) {a b : GroupId} (ha : a < n) (hb : b < n) (origin : String) :
    Keeps (fun memo => memo.Consistent ∧ memo.groups.size = n ∧ P memo)
      (merge a b origin : Edit ν Unit) := by
  have hunion : ∀ {a b : GroupId}, a < n → b < n →
      Keeps (fun memo : Memo ν => memo.Consistent ∧ memo.groups.size = n ∧ P memo)
        (union a b origin) := by
    rintro a b ha hb memo ⟨hconsistent, rfl, hP⟩
    rcases run_union_cases a b origin memo with ⟨-, hrun⟩ | ⟨root, victim, hlt, hends, hrun⟩
    · rw [hrun]
      exact ⟨hconsistent, rfl, hP⟩
    · have hlive : memo.parents[root]? = some root ∧ memo.parents[victim]? = some victim := by
        have hla := hconsistent.led.parents_leader ha
        have hlb := hconsistent.led.parents_leader hb
        rcases hends with ⟨rfl, rfl⟩ | ⟨rfl, rfl⟩
        · exact ⟨hla, hlb⟩
        · exact ⟨hlb, hla⟩
      rw [hrun]
      split
      · exact ⟨hconsistent, rfl, hP⟩
      · next hsame =>
          have htype := not_not.mp hsame
          exact ⟨consistent_absorb hconsistent hlive.1 hlive.2 hlt htype, size_absorb ..,
            habsorb memo root victim hconsistent hlive.1 hlive.2 hlt htype hP⟩
  refine (hunion ha hb).bind fun _ => keeps_get.bind fun memo => keeps_rebuild ?_ ?_ _
  · rintro memo ⟨hconsistent, hsize, hP⟩
    exact ⟨hconsistent.reindexed, hsize, hreindexed memo hconsistent hP⟩
  · rintro memo a b ⟨hconsistent, rfl, hP⟩ hconflict
    obtain ⟨ha, hb, -⟩ := (hconsistent.merged a b).of_conflict hconflict
    exact hunion ha hb memo.reindexed
      ⟨hconsistent.reindexed, rfl, hreindexed memo hconsistent hP⟩

/-- What is required of a group is required of the one that it is merged into. -/
theorem mem_required_absorb (hled : memo.Led) {root victim : GroupId}
    (hr : memo.parents[root]? = some root) (hv : memo.parents[victim]? = some victim)
    (hlt : root < victim) {g : GroupId} {c : Convention} (hc : c ∈ (memo.group g).required) :
    c ∈ ((memo.absorb root victim).group g).required := by
  have hg := lt_of_mem_required hled hc
  have hcongr : ∀ {other : GroupId}, memo.leader g = memo.leader other →
      memo.group other = memo.group g := by
    intro other heq
    have hlt := hled.leader_lt hg
    rw [group_eq_of_lt hlt, group_eq_of_lt (heq ▸ hlt)]
    simp only [heq]
  rw [group_absorb_eq hled hr hv hlt hg]
  split
  · next hmerged =>
      refine Group.mem_required_foldl.mpr ?_
      rcases hmerged with h | h
      · rw [hcongr (h.trans (leader_of_self hv).symm)]
        exact Or.inl hc
      · rw [hcongr (h.trans (leader_of_self hr).symm)]
        exact Or.inr hc
  · exact hc

/-- No rule was applied to a member that does not exist. -/
theorem wasApplied_of_le {m : MemberId} (hm : memo.members.size ≤ m) (hash : UInt64) :
    memo.wasApplied m hash = false := by
  unfold wasApplied member
  rw [Array.getElem?_eq_none hm]
  rfl

/-- Merges are counted. -/
theorem keeps_merges_union (n : Nat) (a b : GroupId) (origin : String) :
    Keeps (fun memo => n ≤ memo.merges) (union a b origin : Edit ν Unit) := by
  intro memo h
  rcases run_union_cases a b origin memo with ⟨-, hrun⟩ | ⟨root, victim, -, -, hrun⟩
  · rw [hrun]
    exact h
  · rw [hrun]
    split
    · exact h
    · exact Nat.le_succ_of_le h

theorem keeps_merges_rebuild (n : Nat) (origin : String) (fuel : Nat) :
    Keeps (fun memo => n ≤ memo.merges) (rebuild origin fuel : Edit ν Unit) :=
  keeps_rebuild (fun _ h => h) (fun memo a b h _ => keeps_merges_union n a b origin memo.reindexed h)
    fuel

/-- A merge of two groups that were different is counted. -/
theorem merges_lt_of_run_merge {a b : GroupId} {origin : String}
    (h : (merge a b origin).run.run memo = (.ok (), after)) (hne : memo.leader a ≠ memo.leader b) :
    memo.merges < after.merges := by
  rw [run_merge] at h
  rcases run_union_cases a b origin memo with ⟨heq, -⟩ | ⟨root, victim, -, -, hrun⟩
  · exact absurd heq hne
  · rw [hrun] at h
    split at h
    · next between heq =>
        split at heq
        · cases heq
        · cases heq
          have hrest := keeps_merges_rebuild (memo.merges + 1) origin
            ((memo.absorb root victim).groups.size + 1) (memo.absorb root victim) (Nat.le_refl _)
          rw [h] at hrest
          exact hrest
    · cases h

/-- A merge makes a memo grow, and is counted if the two groups were different. -/
theorem Settled.growsTo_merge (h : memo.Settled) {a b : GroupId} (ha : a < memo.groups.size)
    (hb : b < memo.groups.size) {origin : String} (hne : memo.leader a ≠ memo.leader b)
    (hrun : (Memo.merge a b origin).run.run memo = (.ok (), after)) :
    memo.GrowsTo after ∧ after.leader a = after.leader b ∧
      after.members.size = memo.members.size ∧ memo.merges < after.merges ∧
      after.groups.size = memo.groups.size ∧
      ∀ m hash, after.wasApplied m hash = memo.wasApplied m hash := by
  have hmerges := merges_lt_of_run_merge hrun hne
  have hkept := keeps_merge (P := fun between => between.groups.size = memo.groups.size ∧
      (∀ g < memo.groups.size, (between.group g).rowType = (memo.group g).rowType) ∧
      ∀ g, ∀ c ∈ (memo.group g).required, c ∈ (between.group g).required) ?_ ?_ ha hb origin memo
    ⟨h.toConsistent, rfl, rfl, fun _ _ => rfl, fun _ _ hc => hc⟩
  · rw [hrun] at hkept
    obtain ⟨-, -, -, hrowType, hrequired⟩ := hkept
    rcases h.merge_cases ha hb origin with ⟨_, _, hrun'⟩ | ⟨_, hrun', hmerged, hsettled, hmergeOf⟩
    · rw [hrun] at hrun'
      cases hrun'
    · rw [hrun] at hrun'
      cases hrun'
      refine ⟨⟨hsettled, Nat.le_of_eq hmerged.size_groups.symm, Nat.le_of_lt hmerges,
        hmerged.coarser, Nat.le_of_eq hmerged.size_members.symm, fun m hm => ?_, hrowType, hrequired,
        fun _ hsame => absurd hsame (Nat.ne_of_gt hmerges)⟩, hmergeOf.isLeast.1.pair,
        hmerged.size_members, hmerges,
        hmerged.size_groups, fun m rule => ?_⟩
      · obtain ⟨children, hread, hchildren⟩ := hmerged.member m hm
        have hlive := hsettled.map_leader (hmerged.size_members.symm ▸ hm)
        rw [hread] at hlive
        refine ⟨(memo.member m).applied, ?_, fun _ hrule => hrule⟩
        rw [hread, ← hchildren]
        dsimp only at hlive
        rw [hlive]
      · rcases Nat.lt_or_ge m memo.members.size with hm | hm
        · obtain ⟨children, hread, -⟩ := hmerged.member m hm
          unfold wasApplied
          rw [hread]
        · rw [wasApplied_of_le hm, wasApplied_of_le (hmerged.size_members.trans_le hm)]
  · intro between _ hbetween
    exact hbetween
  · rintro between root victim hconsistent hr hv hlt htype ⟨hsize, hrowType, hrequired⟩
    refine ⟨(size_absorb ..).trans hsize, fun g hg => ?_, fun g c hc => ?_⟩
    · rw [rowType_absorb hconsistent.led hr hv hlt htype (hsize.symm ▸ hg), hrowType g hg]
    · exact mem_required_absorb hconsistent.led hr hv hlt (hrequired g c hc)

/-! ## What operations add -/

/-- A member of a group that is an operator in a convention over some groups, told by the groups
that stand for these. -/
structure IsEntry (memo : Memo ν) (g : GroupId) (op : Operator) (c : Convention)
    (children : List GroupId) (inputs : List Convention) (m : Member) : Prop where
  group : m.group = memo.leader g
  op : m.op = op
  convention : m.convention = c
  children : m.children = children.map memo.leader
  inputs : m.inputs = inputs

/-- What is known of members, and stays so whatever the memo grows to. -/
def IsStable (Q : Memo ν → Member → Prop) : Prop :=
  ∀ before after m, before.Settled → before.GrowsTo after → m < before.members.size →
    Q before (before.member m) → Q after (after.member m)

theorem isStable_isEntry (g : GroupId) (op : Operator) (c : Convention) (children : List GroupId)
    (inputs : List Convention) :
    IsStable fun memo : Memo ν => memo.IsEntry g op c children inputs := by
  intro before after m hbefore h hm hentry
  constructor
  · rw [h.group_eq hm, hentry.group, h.leader_leader hbefore.led]
  · rw [h.op_eq hm, hentry.op]
  · rw [h.convention_eq hm, hentry.convention]
  · rw [h.children_eq hm, hentry.children, h.map_leader_leader hbefore.led]
  · rw [h.inputs_eq hm, hentry.inputs]

/-- Something is known of every member. -/
def Every (memo : Memo ν) (Q : Memo ν → Member → Prop) : Prop :=
  ∀ m < memo.members.size, Q memo (memo.member m)

/-- What is known of every member, and holds of the new ones, is known of every member that the
memo has when it grew. -/
theorem Every.of_growsTo {Q : Memo ν → Member → Prop} (hevery : before.Every Q) (hQ : IsStable Q)
    (hbefore : before.Settled) (h : before.GrowsTo after)
    (hnew : ∀ m, before.members.size ≤ m → m < after.members.size → Q after (after.member m)) :
    after.Every Q := by
  intro m hm
  rcases Nat.lt_or_ge m before.members.size with hlt | hge
  · exact hQ before after m hbefore h hlt (hevery m hlt)
  · exact hnew m hge hm

/-- A group has a member that is an operator, up to its literals, in a convention over some
groups. -/
def Has (memo : Memo ν) (g : GroupId) (op : Operator) (c : Convention) (children : List GroupId)
    (inputs : List Convention) : Prop :=
  ∃ m < memo.members.size, ∃ op', op'.canonical = op.canonical ∧
    memo.IsEntry g op' c children inputs (memo.member m)

/-- What a group has, it keeps. -/
theorem GrowsTo.has (h : before.GrowsTo after) (hbefore : before.Settled) {g : GroupId}
    {op : Operator} {c : Convention} {children : List GroupId} {inputs : List Convention}
    (hhas : before.Has g op c children inputs) : after.Has g op c children inputs := by
  obtain ⟨m, hm, op', hop, hentry⟩ := hhas
  exact ⟨m, h.lt hm, op', hop, isStable_isEntry g op' c children inputs before after m hbefore h hm
    hentry⟩

/-- Groups of the same leader have the same members. -/
theorem Has.congr {g other : GroupId} {op : Operator} {c : Convention} {children : List GroupId}
    {inputs : List Convention} (h : memo.Has g op c children inputs)
    (hl : memo.leader g = memo.leader other) : memo.Has other op c children inputs := by
  obtain ⟨m, hm, op', hop, hentry⟩ := h
  exact ⟨m, hm, op', hop, hentry.group.trans hl, hentry.op, hentry.convention, hentry.children,
    hentry.inputs⟩

/-- What the index knows, the group of the member that it names has. -/
theorem Settled.has_of_index (h : memo.Settled) {op : Operator} {c : Convention}
    {children : List GroupId} {inputs : List Convention} {m : MemberId}
    (hm : memo.index.get? (.of op c (children.map memo.leader) inputs) = some m) :
    m < memo.members.size ∧ memo.Has (memo.member m).group op c children inputs := by
  obtain ⟨hlt, hkey⟩ := h.knows _ _ hm
  unfold Member.key MemberKey.of at hkey
  obtain ⟨hchildren, hconvention, hinputs, hop⟩ := MemberKey.mk.inj hkey
  refine ⟨hlt, m, hlt, _, hop, ?_, rfl, hconvention, hchildren, hinputs⟩
  rw [leader_of_self (h.member m hlt).1.group_live]

/-- A memo grows by members of some kind, and no rule is marked. -/
structure AddsTo (N : Memo ν → Member → Prop) (before after : Memo ν) : Prop
    extends before.GrowsTo after where
  unmarked : ∀ m hash, after.wasApplied m hash = before.wasApplied m hash
  added : ∀ m, before.members.size ≤ m → m < after.members.size → N after (after.member m)

variable {N N' : Memo ν → Member → Prop}

theorem Settled.addsTo_self (h : memo.Settled) : memo.AddsTo N memo where
  toGrowsTo := h.growsTo_self
  unmarked _ _ := rfl
  added _ hle hlt := absurd hlt (Nat.not_lt_of_le hle)

theorem AddsTo.trans (h : before.AddsTo N mid) (h' : mid.AddsTo N after) (hN : IsStable N) :
    before.AddsTo N after where
  toGrowsTo := h.toGrowsTo.trans h'.toGrowsTo
  unmarked m hash := (h'.unmarked m hash).trans (h.unmarked m hash)
  added m hle hlt := by
    rcases Nat.lt_or_ge m mid.members.size with hm | hm
    · exact hN mid after m h.settled h'.toGrowsTo hm (h.added m hle hm)
    · exact h'.added m hm hlt

theorem AddsTo.imp (h : before.AddsTo N after)
    (hN : ∀ m, N after (after.member m) → N' after (after.member m)) : before.AddsTo N' after where
  toGrowsTo := h.toGrowsTo
  unmarked := h.unmarked
  added m hle hlt := hN m (h.added m hle hlt)

/-- Requirements are no members. -/
theorem Settled.addsTo_require (h : memo.Settled) (g : GroupId) (c : Convention) :
    memo.AddsTo N (memo.require g c) where
  toGrowsTo := h.growsTo_require g c
  unmarked _ _ := rfl
  added _ hle hlt := absurd hlt (Nat.not_lt_of_le hle)

section Push

variable {g : GroupId} {op : Operator} {c : Convention} {children : List GroupId}
  {inputs : List Convention}

theorem wasApplied_pushMember (memo : Memo ν) (g : GroupId) (op : Operator) (c : Convention)
    (children : List GroupId) (inputs : List Convention) (m : MemberId) (hash : UInt64) :
    (memo.pushMember g op c children inputs).wasApplied m hash = memo.wasApplied m hash := by
  by_cases hm : m = memo.members.size
  · rw [wasApplied_of_le (Nat.le_of_eq hm.symm)]
    unfold wasApplied
    rw [member_pushMember, if_pos hm]
    rfl
  · unfold wasApplied
    rw [member_pushMember, if_neg hm]

/-- A new member is an entry of the group that it is added to. -/
theorem isEntry_pushMember (memo : Memo ν) (g : GroupId) (op : Operator) (c : Convention)
    (children : List GroupId) (inputs : List Convention) :
    (memo.pushMember (memo.leader g) op c (children.map memo.leader) inputs).IsEntry g op c children
      inputs ((memo.pushMember (memo.leader g) op c (children.map memo.leader) inputs).member
        memo.members.size) := by
  rw [member_pushMember, if_pos rfl]
  exact ⟨rfl, rfl, rfl, rfl, rfl⟩

/-- So is one that is added in a group of its own. -/
theorem Led.isEntry_pushGroup_pushMember (hled : memo.Led) (t : RowType) (op : Operator)
    (c : Convention) (children : List GroupId) (inputs : List Convention) :
    ((memo.pushGroup t).pushMember memo.groups.size op c (children.map memo.leader)
      inputs).IsEntry memo.groups.size op c children inputs
        (((memo.pushGroup t).pushMember memo.groups.size op c (children.map memo.leader)
          inputs).member memo.members.size) := by
  have hself : ∀ g, ((memo.pushGroup t).pushMember memo.groups.size op c (children.map memo.leader)
      inputs).leader g = memo.leader g := hled.leader_pushGroup_eq t
  have hread : ((memo.pushGroup t).pushMember memo.groups.size op c (children.map memo.leader)
      inputs).member memo.members.size = ⟨memo.members.size, memo.groups.size, op, c,
        children.map memo.leader, inputs, []⟩ := (member_pushMember _).trans (if_pos rfl)
  rw [hread]
  refine ⟨?_, rfl, rfl, ?_, rfl⟩
  · rw [hself, leader_of_none (Array.getElem?_eq_none (Nat.le_of_eq hled.size))]
  · exact List.map_congr_left fun g _ => (hself g).symm

/-- After a member was added to a group, the group has it, and nothing else was added. -/
theorem Settled.returns_addTo (h : memo.Settled) (hg : g < memo.groups.size)
    (hlt : ∀ child ∈ children, child < memo.groups.size) {origin : String} {m : MemberId}
    (hrun : Returns (Memo.addTo g op c children inputs origin) memo m after) :
    memo.AddsTo (fun memo => memo.IsEntry g op c children inputs) after ∧
      after.Has g op c children inputs ∧ after.groups.size = memo.groups.size := by
  have hlead := h.led.leader_lt hg
  have hsettled : after.Settled := by
    have horderly : memo.Orderly (Memo.addTo g op c children inputs origin) := h.addTo hg hlt origin
    rcases horderly with ⟨e, -, hfails⟩ | ⟨_, _, hok, hsettled, -⟩
    · rw [show _ = _ from hrun] at hfails
      cases hfails
    · rw [show _ = _ from hrun] at hok
      cases hok
      exact hsettled
  unfold Returns at hrun
  rw [run_addTo] at hrun
  rcases hindex : memo.index.get? (.of op c (children.map memo.leader) inputs) with _ | first
  · -- a member of a new key is pushed, or there is an error
    rw [hindex] at hrun
    dsimp only at hrun
    split at hrun
    · cases hrun
    · split at hrun
      · cases hrun
      · cases hrun
        have hgrows : memo.GrowsTo
            (memo.pushMember (memo.leader g) op c (children.map memo.leader) inputs) :=
          h.growsTo_pushMember (by rwa [h.led.leader_leader]) hsettled
        have hentry := memo.isEntry_pushMember g op c children inputs
        have hsize : (memo.pushMember (memo.leader g) op c (children.map memo.leader)
            inputs).members.size = memo.members.size + 1 := Array.size_push ..
        refine ⟨⟨hgrows, wasApplied_pushMember _ _ _ _ _ _, fun i hle hi => ?_⟩,
          ⟨memo.members.size, by omega, op, rfl, hentry⟩, Array.size_modify ..⟩
        obtain rfl : i = memo.members.size := by omega
        exact hentry
  · rw [hindex] at hrun
    obtain ⟨hfirst, hhas⟩ := h.has_of_index hindex
    have hfits := (h.member first hfirst).1
    have howner : memo.leader (memo.member first).group = (memo.member first).group :=
      leader_of_self hfits.group_live
    dsimp only at hrun
    split at hrun
    · next hne =>
        split at hrun
        · next between hmerge =>
            cases hrun
            obtain ⟨hgrows, hpair, hmembers, -, hgroups, hunmarked⟩ :=
              h.growsTo_merge (hfits.group_lt h.led) hlead
                (by rwa [howner, h.led.leader_leader]) hmerge
            refine ⟨⟨hgrows, hunmarked, fun i hle hi => ?_⟩, ?_, hgroups⟩
            · omega
            · exact (hgrows.has h hhas).congr (hpair.trans (hgrows.leader_leader h.led g))
        · cases hrun
    · next hsame =>
        cases hrun
        exact ⟨h.addsTo_self, hhas.congr (howner.trans (not_not.mp hsame)), rfl⟩

/-- After a logical member was added, the group that it was added in has it, and there is nothing
else that is new. -/
theorem Settled.returns_addLogical (h : memo.Settled)
    (hlt : ∀ child ∈ children, child < memo.groups.size)
    (hrun : Returns (Memo.addLogical op children) memo g after) :
    memo.AddsTo (fun memo => memo.IsEntry g op .logical children (children.map fun _ => .logical))
        after ∧
      after.Has g op .logical children (children.map fun _ => .logical) ∧
      g < after.groups.size := by
  have hsettled : after.Settled := by
    have horderly : memo.Orderly (Memo.addLogical op children) := h.addLogical hlt
    rcases horderly with ⟨e, -, hfails⟩ | ⟨_, _, hok, hsettled, -⟩
    · rw [show _ = _ from hrun] at hfails
      cases hfails
    · rw [show _ = _ from hrun] at hok
      cases hok
      exact hsettled
  obtain ⟨⟨g', m⟩, mid, hadd, hpure⟩ := returns_bind.mp hrun
  obtain ⟨rfl, rfl⟩ := returns_pure.mp hpure
  unfold Returns at hadd
  rw [run_add] at hadd
  rcases hindex : memo.index.get? (.of op .logical (children.map memo.leader)
    (children.map fun _ => .logical)) with _ | first
  · rw [hindex] at hadd
    dsimp only at hadd
    split at hadd
    · cases hadd
    · next t _ =>
        cases hadd
        have hgroups : ((memo.pushGroup t).pushMember memo.groups.size op .logical
            (children.map memo.leader) (children.map fun _ => .logical)).groups.size =
            memo.groups.size + 1 := (Array.size_modify ..).trans (Array.size_push ..)
        have hmembers : ((memo.pushGroup t).pushMember memo.groups.size op .logical
            (children.map memo.leader) (children.map fun _ => .logical)).members.size =
            memo.members.size + 1 := Array.size_push ..
        have hentry := h.led.isEntry_pushGroup_pushMember t op .logical children
          (children.map fun _ => .logical)
        refine ⟨⟨h.growsTo_pushGroup_pushMember hsettled, fun i rule => ?_, fun i hle hi => ?_⟩,
          ⟨memo.members.size, by omega, op, rfl, hentry⟩,
          lt_of_lt_of_eq (Nat.lt_succ_self _) hgroups.symm⟩
        · exact (memo.pushGroup t).wasApplied_pushMember memo.groups.size op .logical
            (children.map memo.leader) (children.map fun _ => .logical) i rule
        · obtain rfl : i = memo.members.size := by omega
          exact hentry
  · rw [hindex] at hadd
    cases hadd
    obtain ⟨hfirst, hhas⟩ := h.has_of_index hindex
    exact ⟨h.addsTo_self, hhas, (h.member _ hfirst).1.group_lt h.led⟩

/-- What the index does not know, no group has. -/
theorem Settled.not_has_of_index (h : memo.Settled)
    (hnone : memo.index.get? (.of op c (children.map memo.leader) inputs) = none) :
    ¬ memo.Has g op c children inputs := by
  rintro ⟨m, hm, op', hop, hentry⟩
  obtain ⟨first, hfirst, -⟩ := h.indexed m hm
  unfold Member.key MemberKey.of at hfirst
  rw [hentry.op, hop, hentry.convention, hentry.children, hentry.inputs] at hfirst
  cases hfirst.symm.trans hnone

/-- A new member in a group is for a key that there was none for. -/
theorem Settled.size_of_returns_addTo (h : memo.Settled) (hg : g < memo.groups.size)
    {origin : String} {m : MemberId}
    (hrun : Returns (Memo.addTo g op c children inputs origin) memo m after) :
    after.members.size = memo.members.size ∨ after.members.size = memo.members.size + 1 ∧
      ∀ g, ¬ memo.Has g op c children inputs := by
  unfold Returns at hrun
  rw [run_addTo] at hrun
  rcases hindex : memo.index.get? (.of op c (children.map memo.leader) inputs) with _ | first
  · rw [hindex] at hrun
    dsimp only at hrun
    split at hrun
    · cases hrun
    · split at hrun
      · cases hrun
      · cases hrun
        exact .inr ⟨Array.size_push .., fun g => h.not_has_of_index hindex⟩
  · rw [hindex] at hrun
    have hfits := (h.member first (h.has_of_index hindex).1).1
    dsimp only at hrun
    split at hrun
    · next hne =>
        split at hrun
        · next between hmerge =>
            cases hrun
            refine .inl (h.growsTo_merge (hfits.group_lt h.led) (h.led.leader_lt hg) ?_ hmerge).2.2.1
            rwa [leader_of_self hfits.group_live, h.led.leader_leader]
        · cases hrun
    · cases hrun
      exact .inl rfl

/-- A new member in a group of its own is, too. -/
theorem Settled.size_of_returns_addLogical (h : memo.Settled)
    (hrun : Returns (Memo.addLogical op children) memo g after) :
    after = memo ∨ g = memo.groups.size ∧ after.groups.size = memo.groups.size + 1 ∧
      after.members.size = memo.members.size + 1 ∧
      ∀ g, ¬ memo.Has g op .logical children (children.map fun _ => .logical) := by
  obtain ⟨⟨g', m⟩, mid, hadd, hpure⟩ := returns_bind.mp hrun
  obtain ⟨rfl, rfl⟩ := returns_pure.mp hpure
  unfold Returns at hadd
  rw [run_add] at hadd
  rcases hindex : memo.index.get? (.of op .logical (children.map memo.leader)
    (children.map fun _ => .logical)) with _ | first
  · rw [hindex] at hadd
    dsimp only at hadd
    split at hadd
    · cases hadd
    · cases hadd
      exact .inr ⟨rfl, (Array.size_modify ..).trans (Array.size_push ..), Array.size_push ..,
        fun g => h.not_has_of_index hindex⟩
  · rw [hindex] at hadd
    cases hadd
    exact .inl rfl

end Push

end Memo

end QueryPlanner
