/-
# The memo

The memo is the state of one optimization: groups of members that produce the same
rows. A member is an operator in a convention whose inputs are groups, so every
alternative for an input is an alternative for all who read it.

Groups found to be the same are merged. `parents` points from every group that ever existed
to one that it was merged into, and from a group that stands for itself to itself; the group
at the end of the pointers, the one with the smallest number, stands for all that lead to it.
-/
import QueryPlanner.OptimizationError
import QueryPlanner.Statistics

namespace QueryPlanner

/-- The number of a group. -/
abbrev GroupId : Type := Nat

/-- The number of a member. -/
abbrev MemberId : Type := Nat

/-- One way to produce the rows of a group. -/
structure Member where
  id : MemberId
  group : GroupId
  op : Operator
  convention : Convention
  children : List GroupId
  /-- The convention required of each child. -/
  inputs : List Convention
  /-- The hashes of the rules that were applied to the member. -/
  applied : List UInt64 := []
  deriving DecidableEq, Inhabited

/-- Whether a member is logical. -/
def Member.isLogical (m : Member) : Bool := m.convention.isLogical

/-- What makes two members the same: everything but their numbers and groups, with
literals up to likeness. -/
structure MemberKey where
  children : List GroupId
  convention : Convention
  inputs : List Convention
  op : Operator
  deriving DecidableEq, Inhabited

/-- The key of an operator over groups. -/
def MemberKey.of (op : Operator) (convention : Convention) (children : List GroupId)
    (inputs : List Convention) : MemberKey :=
  ⟨children, convention, inputs, op.canonical⟩

/-- The key of a member. -/
def Member.key (m : Member) : MemberKey := .of m.op m.convention m.children m.inputs

/-- Which member has which key, with the keys of the same inputs together. -/
structure MemberIndex where
  byChildren : Dictionary (List GroupId) (Dictionary MemberKey MemberId) := []
  deriving Inhabited

namespace MemberIndex

/-- The members that read some groups. -/
def reading (index : MemberIndex) (children : List GroupId) : Dictionary MemberKey MemberId :=
  (index.byChildren.get? children).getD []

/-- The member of a key. -/
def get? (index : MemberIndex) (key : MemberKey) : Option MemberId :=
  (index.reading key.children).get? key

/-- Gives a key its member. -/
def insert (index : MemberIndex) (key : MemberKey) (m : MemberId) : MemberIndex :=
  ⟨index.byChildren.insert key.children ((key, m) :: index.reading key.children)⟩

/-- Only the key that was written is read differently. -/
theorem get?_insert_member (index : MemberIndex) (key other : MemberKey) (m : MemberId) :
    (index.insert key m).get? other = if key = other then some m else index.get? other := by
  unfold get? insert reading
  rw [Dictionary.get?_insert]
  by_cases hc : key.children = other.children
  · rw [if_pos hc, Option.getD_some, Dictionary.get?, hc]
  · have hk : key ≠ other := fun h => hc (congrArg MemberKey.children h)
    rw [if_neg hc, if_neg hk]

end MemberIndex

/-- The cheapest member of a group in one convention. -/
structure Winner (ν : Type) where
  member : MemberId
  cost : ν
  deriving Inhabited

/-- A class of members that produce the same rows. -/
structure Group (ν : Type) where
  id : GroupId
  /-- The members, in the order they were added. -/
  members : List MemberId
  rowType : RowType
  /-- The conventions that some consumer needs, in the order they were asked for. -/
  required : List Convention
  winners : Dictionary Convention (Winner ν)
  statistics : Option (Statistics ν)
  deriving Inhabited

/-- The group with a further required convention. -/
def Group.require {ν : Type} (g : Group ν) (c : Convention) : Group ν :=
  if g.required.contains c then g else { g with required := g.required ++ [c] }

/-- A group needs what it needed before and the convention asked for. -/
theorem Group.mem_required_require {ν : Type} (g : Group ν) (c other : Convention) :
    other ∈ (g.require c).required ↔ other = c ∨ other ∈ g.required := by
  unfold Group.require
  by_cases h : g.required.contains c
  · rw [if_pos h]
    have hc : c ∈ g.required := List.contains_iff_mem.mp h
    constructor
    · intro ho
      exact Or.inr ho
    · rintro (rfl | ho)
      · exact hc
      · exact ho
  · rw [if_neg h]
    simp [or_comm]

/-- Groups, their members, and which member has which key. -/
structure Memo (ν : Type) where
  groups : Array (Group ν) := #[]
  members : Array Member := #[]
  parents : Array GroupId := #[]
  index : MemberIndex := {}
  merges : Nat := 0
  deriving Inhabited

namespace Memo

variable {ν : Type}

/-- The memo without any group. -/
def empty : Memo ν := {}

/-- The group at the end of the pointers from `g`, after some steps at most. -/
def climb (parents : Array GroupId) : Nat → GroupId → GroupId
  | 0, g => g
  | fuel + 1, g =>
      match parents[g]? with
      | none => g
      | some p => if p = g then g else climb parents fuel p

/-- A group without a pointer is the end of its way. -/
theorem climb_of_none {parents : Array GroupId} {g : GroupId} (h : parents[g]? = none)
    (fuel : Nat) : climb parents fuel g = g := by
  cases fuel with
  | zero => rfl
  | succ fuel => rw [climb, h]

/-- A group that points to itself is the end of its way. -/
theorem climb_of_self {parents : Array GroupId} {g : GroupId} (h : parents[g]? = some g)
    (fuel : Nat) : climb parents fuel g = g := by
  cases fuel with
  | zero => rfl
  | succ fuel =>
      rw [climb, h]
      exact if_pos rfl

/-- A new group that points to itself changes no way. -/
theorem climb_push (parents : Array GroupId) (fuel : Nat) (g : GroupId) :
    climb (parents.push parents.size) fuel g = climb parents fuel g := by
  induction fuel generalizing g with
  | zero => rfl
  | succ fuel ih =>
      rw [climb, climb, Array.getElem?_push]
      by_cases hg : g = parents.size
      · rw [if_pos hg, hg, Array.getElem?_eq_none (Nat.le_refl _)]
        exact if_pos rfl
      · rw [if_neg hg]
        cases parents[g]? with
        | none => rfl
        | some p => exact congrArg (fun r => if p = g then g else r) (ih p)

/-- The group that stands for `g` now. No pointer leads to a larger number, so that there
are no more than `g` steps to it. -/
def leader (memo : Memo ν) (g : GroupId) : GroupId := climb memo.parents g g

/-- The group that stands for `g`, with its members. -/
def group (memo : Memo ν) (g : GroupId) : Group ν :=
  memo.groups[memo.leader g]?.getD ⟨g, [], ⟨[]⟩, [], [], none⟩

/-- Changes the group that stands for `g`. -/
def modifyGroup (memo : Memo ν) (g : GroupId) (f : Group ν → Group ν) : Memo ν :=
  { memo with groups := memo.groups.modify (memo.leader g) f }

/-- A member by its number. -/
def member (memo : Memo ν) (m : MemberId) : Member := memo.members[m]?.getD default

/-- Whether a group stands for itself. -/
def isLive (memo : Memo ν) (g : GroupId) : Bool := memo.parents[g]? == some g

/-- The groups that stand for themselves, in the order they were made. -/
def liveGroups (memo : Memo ν) : List GroupId :=
  (List.range memo.groups.size).filter memo.isLive

/-- How many groups stand for themselves. -/
def groupCount (memo : Memo ν) : Nat := memo.liveGroups.length

/-- How many members there are. -/
def memberCount (memo : Memo ν) : Nat := memo.members.size

/-- The members of a group. -/
def membersOf (memo : Memo ν) (g : GroupId) : List Member :=
  (memo.group g).members.map memo.member

/-- The statistics of a group; those of an unknown relation before they are derived. -/
def statisticsOf [Quantity ν] (memo : Memo ν) (g : GroupId) : Statistics ν :=
  (memo.group g).statistics.getD .unknown

/-- The winner of a group in a convention. -/
def winner (memo : Memo ν) (g : GroupId) (c : Convention) : Option (Winner ν) :=
  (memo.group g).winners.get? c

/-- Whether the rule of a hash was applied to a member before. -/
def wasApplied (memo : Memo ν) (m : MemberId) (hash : UInt64) : Bool :=
  (memo.member m).applied.contains hash

/-- Records that the rule of a hash was applied to a member. -/
def markApplied (memo : Memo ν) (m : MemberId) (hash : UInt64) : Memo ν :=
  { memo with members := memo.members.modify m fun x => { x with applied := hash :: x.applied } }

/-- A recorded application is found again, and no other one appears. -/
theorem wasApplied_markApplied (memo : Memo ν) (m other : MemberId) (hash another : UInt64)
    (h : m < memo.memberCount) :
    (memo.markApplied m hash).wasApplied other another =
      (decide ((other, another) = (m, hash)) || memo.wasApplied other another) := by
  unfold memberCount at h
  unfold wasApplied markApplied member
  rw [Array.getElem?_modify]
  by_cases ho : m = other
  · subst ho
    simp only [if_pos, Array.getElem?_eq_getElem h, Option.map_some, Option.getD_some]
    rw [List.contains_cons, Bool.eq_iff_iff]
    simp
  · simp [ho, Ne.symm ho]

/-- Records that a consumer needs a group in a convention. -/
def require (memo : Memo ν) (g : GroupId) (c : Convention) : Memo ν :=
  memo.modifyGroup g (·.require c)

/-- What a group needs changes no leader. -/
theorem leader_require (memo : Memo ν) (g other : GroupId) (c : Convention) :
    (memo.require g c).leader other = memo.leader other := rfl

/-- The name of the kind of a group's first member. -/
def kindName (memo : Memo ν) (g : GroupId) : String :=
  match (memo.group g).members with
  | m :: _ => (memo.member m).op.kind.name
  | [] => ""

end Memo

end QueryPlanner
