/-
# Bounded memos

A memo that stays within limits can only grow so far. What it may have a member for is one of
finitely many keys; what it has, it keeps, and a new member is for a key that there was no member
for. So members and missing keys together never become more, and as groups are only made for joins
of old groups, neither do groups and missing joins.

* `Limits.keys`, `Limits.finite_keys` : what there may be members for;
* `Memo.absent`, `ncard_absent_lt` : what is missing, and becomes less;
* `IsBounded` : a memo within limits;
* `IsBounded.exists_addTo`, `IsBounded.exists_addLogical` : adding what is within limits keeps a
  memo within them, and is never refused.
-/
import Mathlib.Data.Set.Card
import QueryPlanner.Proofs.Limits
import QueryPlanner.Proofs.Memo.Shapes

namespace QueryPlanner

/-! ## Keys -/

/-- What may be added to a memo within limits: the operator is within limits, the conventions are
known, and a join reads old groups. -/
structure Limits.Permits (lim : Limits) (op : Operator) (c : Convention) (children : List GroupId)
    (inputs : List Convention) : Prop where
  isOver : op.IsOver lim
  old : op.kind = .join → ∀ child ∈ children, child < lim.older
  convention : c ∈ lim.conventions
  inputs : ∀ input ∈ inputs, input ∈ lim.conventions

namespace Limits

variable {lim : Limits} {n : Nat} {op op' : Operator} {c : Convention} {children : List GroupId}
  {inputs : List Convention}

/-- Groups of smaller numbers may be read instead. -/
theorem Permits.map (h : lim.Permits op c children inputs) {f : GroupId → GroupId}
    (hf : ∀ g, f g ≤ g) : lim.Permits op c (children.map f) inputs where
  isOver := h.isOver
  old hop child hchild := by
    obtain ⟨g, hg, rfl⟩ := List.mem_map.mp hchild
    exact Nat.lt_of_le_of_lt (hf g) (h.old hop g hg)
  convention := h.convention
  inputs := h.inputs

/-- A logical operator may be added over what any operator is over that may be added. -/
theorem Permits.logical (h : lim.Permits op c children inputs) (hover : op'.IsOver lim)
    (hkind : op'.kind = .join → op.kind = .join) :
    lim.Permits op' .logical children (children.map fun _ => .logical) where
  isOver := hover
  old hop := h.old (hkind hop)
  convention := lim.logical_mem
  inputs input hinput := by
    obtain ⟨g, -, rfl⟩ := List.mem_map.mp hinput
    exact lim.logical_mem

/-- The keys of members within limits that read groups below some number. -/
def keys (lim : Limits) (n : Nat) : Set MemberKey :=
  {key | key.op ∈ lim.operators ∧ key.convention ∈ lim.conventions ∧
    (key.children.length ≤ 2 ∧ ∀ child ∈ key.children, child < n) ∧
    (key.inputs.length ≤ 2 ∧ ∀ input ∈ key.inputs, input ∈ lim.conventions)}

/-- There are finitely many of them. -/
theorem finite_keys (lim : Limits) (n : Nat) : (lim.keys n).Finite := by
  have hall := ((lim.finite_operators.prod lim.finite_conventions).prod
    ((finite_setOf_length_le (Set.finite_lt_nat n) 2).prod
      (finite_setOf_length_le lim.finite_conventions 2))).image
    fun x => MemberKey.mk x.2.1 x.1.2 x.2.2 x.1.1
  refine hall.subset ?_
  rintro ⟨children, c, inputs, op⟩ ⟨hop, hc, hchildren, hinputs⟩
  exact ⟨((op, c), (children, inputs)), ⟨⟨hop, hc⟩, hchildren, hinputs⟩, rfl⟩

/-- What may be added has one of these keys, if its shape is within limits. -/
theorem Permits.mem_keys (h : lim.Permits op c children inputs) {shapes : List Shape} {s : Shape}
    (hop : op.Shapes shapes s) (hs : lim.Allows s) (hshapes : shapes.length = children.length)
    (hlength : inputs.length = children.length) (hlt : ∀ child ∈ children, child < n) :
    ⟨children, c, inputs, op⟩ ∈ lim.keys n := by
  have htwo := hop.length_le
  exact ⟨⟨h.isOver, shapes, s, hop, hs⟩, h.convention, ⟨hshapes ▸ htwo, hlt⟩,
    hlength ▸ hshapes ▸ htwo, h.inputs⟩

/-- More groups than this a search cannot make. -/
noncomputable def maxGroups (lim : Limits) : Nat := lim.older + (lim.keys lim.older).ncard

/-- More members than this a search cannot make. -/
noncomputable def maxMembers (lim : Limits) : Nat := lim.older + (lim.keys lim.maxGroups).ncard

end Limits

namespace Memo

variable {ν : Type} {memo before mid after : Memo ν} {lim : Limits} {g : GroupId} {op : Operator}
  {c : Convention} {children : List GroupId} {inputs : List Convention}

/-! ## What is missing -/

/-- The keys that a memo has no member for. -/
def absent (memo : Memo ν) (keys : Set MemberKey) : Set MemberKey :=
  {key ∈ keys | ¬ ∃ g, memo.Has g key.op key.convention key.children key.inputs}

section Absent

variable {keys : Set MemberKey}

/-- What is there stays there. -/
theorem GrowsTo.absent_subset (h : before.GrowsTo after) (hbefore : before.Settled) :
    after.absent keys ⊆ before.absent keys := by
  rintro key ⟨hkey, hmissing⟩
  refine ⟨hkey, ?_⟩
  rintro ⟨g, hhas⟩
  exact hmissing ⟨g, h.has hbefore hhas⟩

theorem finite_absent (hkeys : keys.Finite) : (memo.absent keys).Finite :=
  hkeys.subset fun _ hkey => hkey.1

theorem GrowsTo.ncard_absent_le (h : before.GrowsTo after) (hbefore : before.Settled)
    (hkeys : keys.Finite) : (after.absent keys).ncard ≤ (before.absent keys).ncard :=
  Set.ncard_le_ncard (h.absent_subset hbefore) (finite_absent hkeys)

/-- Less is missing when there is a member for a key that there was none for. -/
theorem GrowsTo.ncard_absent_lt (h : before.GrowsTo after) (hbefore : before.Settled)
    (hkeys : keys.Finite) (hkey : ⟨children, c, inputs, op⟩ ∈ keys)
    (hmissing : ∀ g, ¬ before.Has g op c children inputs)
    (hhas : after.Has g op c children inputs) :
    (after.absent keys).ncard < (before.absent keys).ncard := by
  refine Set.ncard_lt_ncard ⟨h.absent_subset hbefore, fun hsub => ?_⟩ (finite_absent hkeys)
  have hold : ⟨children, c, inputs, op⟩ ∈ before.absent keys :=
    ⟨hkey, fun ⟨g, hg⟩ => hmissing g hg⟩
  exact (hsub hold).2 ⟨g, hhas⟩

end Absent

/-! ## Bounded memos -/

/-- A memo within limits: its groups have shapes that are, its members are, and there are not more
groups and members than what is no longer missing accounts for. -/
structure IsBounded (lim : Limits) (den : GroupId → Shape) (memo : Memo ν) : Prop where
  settled : memo.Settled
  shaped : memo.IsShaped den
  allows : ∀ g < memo.groups.size, lim.Allows (den g)
  permits : ∀ m < memo.members.size, lim.Permits (memo.member m).op (memo.member m).convention
    (memo.member m).children (memo.member m).inputs
  groups : memo.groups.size + (memo.absent (lim.keys lim.older)).ncard ≤ lim.maxGroups
  members : memo.members.size + (memo.absent (lim.keys lim.maxGroups)).ncard ≤ lim.maxMembers

variable {den den' den'' : GroupId → Shape}

/-- A memo within limits grows to another one: the shapes of groups stay what they are, and no rule
is marked. -/
structure Expands (lim : Limits) (den : GroupId → Shape) (memo : Memo ν) (den' : GroupId → Shape)
    (after : Memo ν) : Prop where
  bounded : after.IsBounded lim den'
  grows : memo.GrowsTo after
  agree : ∀ g < memo.groups.size, den' g = den g
  unmarked : ∀ m hash, after.wasApplied m hash = memo.wasApplied m hash

theorem IsBounded.expands_self (h : memo.IsBounded lim den) : memo.Expands lim den den memo where
  bounded := h
  grows := h.settled.growsTo_self
  agree _ _ := rfl
  unmarked _ _ := rfl

theorem Expands.trans (h : before.Expands lim den den' mid) (h' : mid.Expands lim den' den'' after) :
    before.Expands lim den den'' after where
  bounded := h'.bounded
  grows := h.grows.trans h'.grows
  agree g hg := (h'.agree g (Nat.lt_of_lt_of_le hg h.grows.groups)).trans (h.agree g hg)
  unmarked m hash := (h'.unmarked m hash).trans (h.unmarked m hash)

/-- What is within limits in a memo is in the ones that it grows to, and so are entries. -/
theorem IsBounded.permits_of_addsTo (h : before.IsBounded lim den)
    (hadds : before.AddsTo (fun memo => memo.IsEntry g op c children inputs) after)
    (hpermits : lim.Permits op c children inputs) :
    ∀ m < after.members.size, lim.Permits (after.member m).op (after.member m).convention
      (after.member m).children (after.member m).inputs := by
  intro m hm
  have hle := hadds.settled.led.leader_le
  rcases Nat.lt_or_ge m before.members.size with hlt | hge
  · have hgrows := hadds.toGrowsTo
    rw [hgrows.op_eq hlt, hgrows.convention_eq hlt, hgrows.children_eq hlt, hgrows.inputs_eq hlt]
    exact (h.permits m hlt).map hle
  · have hentry := hadds.added m hge hm
    rw [hentry.op, hentry.convention, hentry.children, hentry.inputs]
    exact hpermits.map hle

/-- Without new members and merges, a memo stays within limits. -/
theorem IsBounded.expands_of_still (h : memo.IsBounded lim den) (hgrows : memo.GrowsTo after)
    (hmembers : after.members.size = memo.members.size) (hmerges : after.merges = memo.merges) :
    after.IsBounded lim den := by
  obtain ⟨hsize, hleader⟩ := hgrows.still hmembers hmerges
  refine ⟨hgrows.settled, h.shaped.of_growsTo h.settled hgrows (fun _ _ => rfl)
    (fun g => (congrArg den (hleader g)).trans (h.shaped.leader g))
    (fun g hle hg => absurd (hsize ▸ hg) (Nat.not_lt_of_le hle))
    fun m hle hm => absurd (hmembers ▸ hm) (Nat.not_lt_of_le hle), fun g hg => h.allows g (hsize ▸ hg),
    fun m hm => ?_, ?_, ?_⟩
  · have hlt : m < memo.members.size := hmembers ▸ hm
    rw [hgrows.op_eq hlt, hgrows.convention_eq hlt, hgrows.children_eq hlt, hgrows.inputs_eq hlt]
    exact (h.permits m hlt).map hgrows.settled.led.leader_le
  · have hless := hgrows.ncard_absent_le h.settled (lim.finite_keys lim.older)
    have hgroups := h.groups
    omega
  · have hless := hgrows.ncard_absent_le h.settled (lim.finite_keys lim.maxGroups)
    have hmembers' := h.members
    omega

section Add

variable (h : memo.IsBounded lim den) (hlt : ∀ child ∈ children, child < memo.groups.size)

include h hlt

theorem IsBounded.lt_maxGroups {child : GroupId} (hchild : child ∈ children) :
    child < lim.maxGroups :=
  Nat.lt_of_lt_of_le (hlt child hchild) (Nat.le_trans (Nat.le_add_right _ _) h.groups)

/-- What is within limits is added to a group of its shape. -/
theorem IsBounded.exists_addTo (hg : g < memo.groups.size)
    (hpermits : lim.Permits op c children inputs) (hlength : inputs.length = children.length)
    (hop : op.Shapes (children.map den) (den g)) (origin : String) :
    ∃ m after, Returns (addTo g op c children inputs origin) memo m after ∧
      memo.Expands lim den den after := by
  obtain ⟨m, after, hrun, hshaped⟩ := h.shaped.exists_addTo h.settled hlt hg hlength hop origin
  obtain ⟨hadds, hhas, hsize⟩ := h.settled.returns_addTo hg hlt hrun
  have hgrows := hadds.toGrowsTo
  refine ⟨m, after, hrun, ⟨hadds.settled, hshaped, fun x hx => h.allows x (hsize ▸ hx),
    h.permits_of_addsTo hadds hpermits, ?_, ?_⟩, hgrows, fun _ _ => rfl, hadds.unmarked⟩
  · have hless := hgrows.ncard_absent_le h.settled (lim.finite_keys lim.older)
    have hgroups := h.groups
    omega
  · have hmembers := h.members
    have hkey := hpermits.mem_keys hop (h.allows g hg) (List.length_map ..) hlength
      fun child hchild => h.lt_maxGroups hlt hchild
    rcases h.settled.size_of_returns_addTo hg hrun with hsame | ⟨hnew, hmissing⟩
    · have hless := hgrows.ncard_absent_le h.settled (lim.finite_keys lim.maxGroups)
      omega
    · have hless := hgrows.ncard_absent_lt h.settled (lim.finite_keys lim.maxGroups) hkey hmissing hhas
      omega

/-- A logical operator within limits is added in a group of its shape. -/
theorem IsBounded.exists_addLogical {s : Shape}
    (hpermits : lim.Permits op .logical children (children.map fun _ => .logical))
    (hold : ∀ child ∈ children, child < lim.older) (hop : op.Shapes (children.map den) s)
    (hs : lim.Allows s) :
    ∃ g after den', Returns (addLogical op children) memo g after ∧
      memo.Expands lim den den' after ∧ g < after.groups.size ∧ den' g = s := by
  obtain ⟨g, after, den', hrun, hshaped, hagree, hgroup⟩ :=
    h.shaped.exists_addLogical h.settled hlt hop
  obtain ⟨hadds, hhas, hg⟩ := h.settled.returns_addLogical hlt hrun
  have hgrows := hadds.toGrowsTo
  rcases h.settled.size_of_returns_addLogical hrun with rfl | ⟨rfl, hgroups, hmembers, hmissing⟩
  · refine ⟨g, after, den', hrun, ⟨⟨h.settled, hshaped, fun x hx => ?_, h.permits, h.groups,
      h.members⟩, hgrows, hagree, hadds.unmarked⟩, hg, hgroup⟩
    rw [hagree x hx]
    exact h.allows x hx
  · have hlength : (children.map fun _ => Convention.logical).length = children.length :=
      List.length_map ..
    have hless := hgrows.ncard_absent_lt h.settled (lim.finite_keys lim.older)
      (hpermits.mem_keys hop hs (List.length_map ..) hlength hold) hmissing hhas
    have hless' := hgrows.ncard_absent_lt h.settled (lim.finite_keys lim.maxGroups)
      (hpermits.mem_keys hop hs (List.length_map ..) hlength
        fun child hchild => h.lt_maxGroups hlt hchild) hmissing hhas
    have holdGroups := h.groups
    have holdMembers := h.members
    refine ⟨_, after, den', hrun, ⟨⟨hadds.settled, hshaped, fun x hx => ?_,
      h.permits_of_addsTo hadds hpermits, by omega, by omega⟩, hgrows, hagree, hadds.unmarked⟩, hg,
      hgroup⟩
    rcases Nat.lt_or_ge x memo.groups.size with hlt' | hge
    · rw [hagree x hlt']
      exact h.allows x hlt'
    · obtain rfl : x = memo.groups.size := by omega
      rw [hgroup]
      exact hs

end Add

end Memo

end QueryPlanner
