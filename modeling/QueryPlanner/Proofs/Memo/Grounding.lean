/-
# Groups rest on groups of smaller numbers

A group begins with the member that it was made for: a logical one over groups that were there before.
Merges make the groups of a memo read each other in circles, but the group of the smaller number
absorbs the other one, so that its own first member stays in front, and the groups that this reads
only ever get smaller numbers. However a memo is edited, following first members leads downwards.

* `Grounded` : every group has a logical first member over groups of smaller numbers;
* `StandsAs` : what leaves leaders alone leaves groups on their first members, over the same groups;
* `Grounded.absorb`, `grounded_pushed` : the elementary changes keep every group on such a member;
* `Grounded.addLogical`, `Grounded.addTo` : so do the operations.
-/
import QueryPlanner.Proofs.Memo.Calls
import QueryPlanner.Proofs.Memo.Progress

namespace QueryPlanner

namespace Memo

variable {ν : Type} {memo : Memo ν} {g : GroupId} {op : Operator} {c : Convention}
  {children : List GroupId} {inputs : List Convention}

/-- A group stands on a member: it lists the member first, the member is logical, and what it reads
are groups of smaller numbers. -/
structure StandsOn (memo : Memo ν) (g : GroupId) (m : MemberId) : Prop where
  first : (memo.group g).members.head? = some m
  logical : (memo.member m).isLogical = true
  below : ∀ child ∈ (memo.member m).children, memo.leader child < g

/-- Every group that stands for itself stands on its first member. -/
def Grounded (memo : Memo ν) : Prop := ∀ g, memo.parents[g]? = some g → ∃ m, memo.StandsOn g m

theorem grounded_empty : (empty : Memo ν).Grounded := fun _ h => nomatch h

/-! ## Elementary changes -/

theorem StandsOn.mem (h : memo.StandsOn g m) : m ∈ (memo.group g).members :=
  List.mem_of_mem_head? h.first

/-- A group stands on a member that is still in front of it and reads no larger groups than before. -/
theorem StandsOn.congr {other : Memo ν} {m : MemberId} (h : memo.StandsOn g m)
    (hfirst : (other.group g).members.head? = (memo.group g).members.head?)
    (hlogical : (other.member m).isLogical = (memo.member m).isLogical)
    (hbelow : ∀ child ∈ (other.member m).children, ∃ old ∈ (memo.member m).children,
      other.leader child ≤ memo.leader old) : other.StandsOn g m where
  first := hfirst.trans h.first
  logical := hlogical.trans h.logical
  below child hchild := by
    obtain ⟨old, hold, hle⟩ := hbelow child hchild
    exact Nat.lt_of_le_of_lt hle (h.below old hold)

/-- Groups stand on what they stood on, and it reads the groups that it read. -/
structure StandsAs (before after : Memo ν) : Prop where
  leader : ∀ g, after.leader g = before.leader g
  stands : ∀ g m, before.StandsOn g m → after.StandsOn g m
  op : ∀ g m, before.StandsOn g m → (after.member m).op = (before.member m).op
  children : ∀ g m, before.StandsOn g m →
    (after.member m).children.map after.leader = (before.member m).children.map before.leader

/-- Groups stand on members that are still in front of them and the same, up to marks and to which of the
groups of one leader they read. -/
theorem standsAs_of_member {other : Memo ν} (hleader : ∀ g, other.leader g = memo.leader g)
    (hfirst : ∀ g m, memo.StandsOn g m → (other.group g).members.head? = (memo.group g).members.head?)
    (hmember : ∀ g m, memo.StandsOn g m → (other.member m).op = (memo.member m).op ∧
      (other.member m).isLogical = (memo.member m).isLogical ∧
      (other.member m).children.map memo.leader = (memo.member m).children.map memo.leader) :
    memo.StandsAs other where
  leader := hleader
  stands g m h := by
    obtain ⟨-, hlogical, hchildren⟩ := hmember g m h
    refine h.congr (hfirst g m h) hlogical fun child hchild => ?_
    obtain ⟨old, hold, heq⟩ := List.mem_map.mp (hchildren ▸ List.mem_map_of_mem hchild)
    exact ⟨old, hold, Nat.le_of_eq ((hleader child).trans heq.symm)⟩
  op g m h := (hmember g m h).1
  children g m h := by
    rw [funext hleader]
    exact (hmember g m h).2.2

theorem Grounded.of_standsAs (h : memo.Grounded) {other : Memo ν} (hstands : memo.StandsAs other)
    (hparents : other.parents = memo.parents) : other.Grounded := by
  intro g hg
  obtain ⟨m, hm⟩ := h g (hparents ▸ hg)
  exact ⟨m, hstands.stands g m hm⟩

/-- Notes on groups change nothing of it. -/
theorem standsAs_of_sameUpTo {other : Memo ν} {note : Group ν → Group ν}
    (hsame : SameUpTo note other memo) (hnote : ∀ x, (note x).members = x.members) :
    memo.StandsAs other := by
  refine standsAs_of_member hsame.leader (fun g m _ => ?_) fun g m _ => ?_
  · rw [← hnote (other.group g), hsame.group g, hnote]
  · rw [hsame.member]
    exact ⟨rfl, rfl, rfl⟩

theorem Grounded.of_sameUpTo (h : memo.Grounded) {other : Memo ν} {note : Group ν → Group ν}
    (hsame : SameUpTo note other memo) (hnote : ∀ x, (note x).members = x.members) : other.Grounded :=
  h.of_standsAs (standsAs_of_sameUpTo hsame hnote) hsame.parents

theorem standsAs_markApplied (memo : Memo ν) (m : MemberId) (hash : UInt64) :
    memo.StandsAs (memo.markApplied m hash) := by
  refine standsAs_of_member (fun _ => rfl) (fun _ _ _ => rfl) fun g i _ => ?_
  obtain ⟨applied, hread⟩ := memo.member_markApplied m i hash
  rw [hread]
  exact ⟨rfl, rfl, rfl⟩

/-- A new member comes last. -/
theorem standsAs_pushMember (hsettled : memo.Consistent) (hg : memo.leader g < memo.groups.size) :
    memo.StandsAs (memo.pushMember g op c children inputs) := by
  refine standsAs_of_member (fun _ => rfl) (fun x m hm => ?_) fun x m hm => ?_
  · rw [group_pushMember hg]
    split
    · rw [List.head?_append, hm.first]
      rfl
    · rfl
  · rw [member_pushMember, if_neg (Nat.ne_of_lt (hsettled.lt_of_mem_group hm.mem))]
    exact ⟨rfl, rfl, rfl⟩

/-- A new group with a member makes no difference for the others. -/
theorem standsAs_pushed (hsettled : memo.Consistent) (t : RowType) :
    memo.StandsAs ((memo.pushGroup t).pushMember memo.groups.size op c children inputs) := by
  refine standsAs_of_member (hsettled.led.leader_pushGroup_eq t) (fun x m hm => ?_) fun x m hm => ?_
  · -- the new group had no member to stand on
    have hx : x ≠ memo.groups.size := by
      rintro rfl
      have hfirst := hm.first
      rw [members_group_of_le (hsettled.led.le_leader (Nat.le_refl _))] at hfirst
      cases hfirst
    rw [group_pushMember (leader_pushGroup_self_lt hsettled.led t), group_pushGroup hsettled.led t x hx]
    split
    · rw [List.head?_append, hm.first]
      rfl
    · rfl
  · have hne : m ≠ (memo.pushGroup t).members.size :=
      Nat.ne_of_lt (hsettled.lt_of_mem_group hm.mem)
    rw [member_pushMember, if_neg hne]
    exact ⟨rfl, rfl, rfl⟩

/-- A new group stands on its only member, over groups that were there before. -/
theorem grounded_pushed (h : memo.Grounded) (hsettled : memo.Consistent)
    (hlt : ∀ child ∈ children, child < memo.groups.size) (t : RowType) :
    ((memo.pushGroup t).pushMember memo.groups.size op .logical children inputs).Grounded := by
  have hstands : memo.StandsAs
      ((memo.pushGroup t).pushMember memo.groups.size op .logical children inputs) :=
    standsAs_pushed hsettled t
  intro x hx
  by_cases hnew : x = memo.groups.size
  · subst hnew
    have hread : ((memo.pushGroup t).pushMember memo.groups.size op .logical children
        inputs).member memo.members.size =
          ⟨memo.members.size, memo.groups.size, op, .logical, children, inputs, []⟩ :=
      (member_pushMember _).trans (if_pos rfl)
    refine ⟨memo.members.size, ?_, ?_, ?_⟩
    · rw [group_pushMember (leader_pushGroup_self_lt hsettled.led t), if_pos rfl, group_pushGroup_self hsettled.led]
      rfl
    · rw [hread]
      rfl
    · intro child hchild
      rw [hread] at hchild
      rw [hstands.leader]
      exact hsettled.led.leader_lt (hlt child hchild)
  · -- the other groups are as they were
    have hold : memo.parents[x]? = some x := by
      have hx' : (memo.parents.push memo.groups.size)[x]? = some x := hx
      rwa [Array.getElem?_push, hsettled.led.size, if_neg hnew] at hx'
    obtain ⟨m, hm⟩ := h x hold
    exact ⟨m, hstands.stands x m hm⟩

/-- The group that absorbs another one keeps its first member, and who reads the other one reads a
smaller group from then on. -/
theorem Grounded.absorb (h : memo.Grounded) (hsettled : memo.Consistent) {root victim : GroupId}
    (hr : memo.parents[root]? = some root) (hv : memo.parents[victim]? = some victim)
    (hlt : root < victim) : (memo.absorb root victim).Grounded := by
  intro x hx
  have hxlt : x < memo.groups.size := by
    have hlt := (led_absorb hsettled.led (Nat.le_of_lt hlt)).parents_eq_some_iff_lt.mp ⟨x, hx⟩
    rwa [size_absorb] at hlt
  -- the absorbed group no longer stands for itself, and every other one does if it did
  have hne : x ≠ victim := by
    rintro rfl
    have hparent : (memo.absorb root x).parents[x]? = some root :=
      Array.getElem?_setIfInBounds_self_of_lt (Array.getElem?_eq_some_iff.mp hv).1
    rw [hparent] at hx
    exact Nat.ne_of_lt hlt (Option.some.inj hx)
  have hold : memo.parents[x]? = some x := by
    rw [← hx]
    exact (Array.getElem?_setIfInBounds_ne (Ne.symm hne)).symm
  obtain ⟨m, hm⟩ := h x hold
  have hread : (memo.absorb root victim).member m = _ :=
    member_absorb (hsettled.lt_of_mem_group hm.mem)
  refine ⟨m, hm.congr ?_ (by rw [hread]; rfl) fun child hchild => ?_⟩
  · have hgroup := group_absorb hsettled.led hr hv hlt hxlt
    rw [leader_of_self hold] at hgroup
    split at hgroup
    · next hmerged =>
        obtain rfl := hmerged.resolve_left hne
        rw [hgroup.2, List.head?_append, hm.first]
        rfl
    · rw [hgroup]
  · rw [hread] at hchild
    refine ⟨child, hchild, ?_⟩
    rw [leader_absorb hsettled.led hr hv hlt]
    split
    · next hchildren =>
        rw [hchildren]
        exact Nat.le_of_lt hlt
    · exact Nat.le_refl _

/-- Reading leaders in place of the groups that they stand for makes no difference. -/
theorem standsAs_reindexed (hsettled : memo.Consistent) : memo.StandsAs memo.reindexed := by
  refine standsAs_of_member (fun _ => rfl) (fun _ _ _ => rfl) fun g m hm => ?_
  rw [member_reindexed (hsettled.lt_of_mem_group hm.mem)]
  refine ⟨rfl, rfl, ?_⟩
  rw [List.map_map]
  exact List.map_congr_left fun child _ => hsettled.led.leader_leader child

/-! ## Operations -/

section Operations

variable {P : Memo ν → Prop}

/-- Adding a logical member leaves what a new group with the member leaves. -/
theorem of_addLogical (h : P memo) (hpush : ∀ t, P ((memo.pushGroup t).pushMember memo.groups.size op
      .logical (children.map memo.leader) (children.map fun _ => .logical))) :
    P ((Memo.addLogical op children).run.run memo).2 := by
  unfold Memo.addLogical
  rw [run_bind, run_add]
  rcases memo.index.get? (.of op .logical (children.map memo.leader)
    (children.map fun _ => .logical)) with _ | m
  · dsimp only
    rcases memo.deriveRowType op (children.map memo.leader) (children.map fun _ => .logical) with
      e | t
    · exact h
    · exact hpush t
  · exact h

/-- Adding a member to a group that exists leaves what a new member or a merge leaves. -/
theorem Settled.of_addTo (hsettled : memo.Settled) (hg : g < memo.groups.size) {origin : String}
    (h : P memo) (hpush : memo.leader (memo.leader g) < memo.groups.size →
      P (memo.pushMember (memo.leader g) op c (children.map memo.leader) inputs))
    (hmerge : ∀ a b, a < memo.groups.size → b < memo.groups.size →
      P ((Memo.merge a b origin).run.run memo).2) :
    P ((Memo.addTo g op c children inputs origin).run.run memo).2 := by
  have hleader := hsettled.led.leader_lt hg
  rw [run_addTo]
  rcases hindex : memo.index.get? (.of op c (children.map memo.leader) inputs) with _ | m
  · dsimp only
    rcases memo.deriveRowType op (children.map memo.leader) inputs with e | t
    · exact h
    · dsimp only
      split
      · exact h
      · refine hpush ?_
        rwa [hsettled.led.leader_leader]
  · dsimp only
    split
    · have howner := (hsettled.member m (hsettled.knows _ _ hindex).1).1.group_lt hsettled.led
      have hafter := hmerge _ _ howner hleader
      rcases hrun : (Memo.merge (memo.member m).group (memo.leader g) origin).run.run memo with
        ⟨e | ⟨⟩, after⟩
      · rwa [hrun] at hafter
      · rwa [hrun] at hafter
    · exact h

end Operations

theorem Grounded.merge (h : memo.Grounded) (hsettled : memo.Settled) {a b : GroupId}
    (ha : a < memo.groups.size) (hb : b < memo.groups.size) (origin : String) :
    ((Memo.merge a b origin).run.run memo).2.Grounded :=
  (keeps_merge (P := Grounded) (fun _ hconsistent h => h.of_standsAs (standsAs_reindexed hconsistent) rfl)
    (fun _ _ _ hconsistent hr hv hlt _ h => h.absorb hconsistent hr hv hlt) ha hb origin memo
    ⟨hsettled.toConsistent, rfl, h⟩).2.2

theorem Grounded.addLogical (h : memo.Grounded) (hsettled : memo.Settled)
    (hlt : ∀ child ∈ children, child < memo.groups.size) :
    ((Memo.addLogical op children).run.run memo).2.Grounded := by
  refine of_addLogical h fun t => grounded_pushed h hsettled.toConsistent (fun child hchild => ?_) t
  obtain ⟨old, hold, rfl⟩ := List.mem_map.mp hchild
  exact hsettled.led.leader_lt (hlt old hold)

theorem Grounded.addTo (h : memo.Grounded) (hsettled : memo.Settled) (hg : g < memo.groups.size)
    (origin : String) : ((Memo.addTo g op c children inputs origin).run.run memo).2.Grounded :=
  hsettled.of_addTo hg h
    (fun hlt => h.of_standsAs (standsAs_pushMember hsettled.toConsistent hlt) rfl)
    fun _ _ ha hb => h.merge hsettled ha hb origin

end Memo

end QueryPlanner
