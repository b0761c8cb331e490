/-
# Consistent memos

Every member is listed once, by the group that it belongs to; that group stands for itself, and
has the row type which the operator of the member derives from those of its inputs. This holds at
any time, also while groups are being merged. Between two operations, besides, all inputs stand
for themselves, and the index knows each member by its key.

* `Consistent` : what holds at any time;
* `consistent_absorb`, `consistent_pushMember`, `consistent_pushGroup` : the elementary changes
  keep it;
* `Settled` : what holds between two operations;
* `Settled.group_eq_of_key` : members of the same key are in the same group.
-/
import QueryPlanner.Proofs.Memo.Edits

namespace QueryPlanner

namespace Memo

variable {ν : Type} {memo : Memo ν}

/-! ## Consistency -/

/-- A member fits into a memo: its group stands for itself, its inputs exist, and its operator
derives the row type of the group from those of the inputs. -/
structure Fits (memo : Memo ν) (m : Member) : Prop where
  group_live : memo.parents[m.group]? = some m.group
  children_lt : ∀ g ∈ m.children, g < memo.groups.size
  length_inputs : m.inputs.length = m.children.length
  rowType : m.op.deriveRowType (m.children.map fun g => (memo.group g).rowType) =
    .ok (memo.group m.group).rowType

/-- Every member fits, has its own number, and is listed once, by its group. -/
structure Consistent (memo : Memo ν) : Prop where
  led : memo.Led
  member : ∀ m < memo.members.size, memo.Fits (memo.member m) ∧ (memo.member m).id = m
  listed : ∀ g x, memo.groups[g]? = some x → ∀ m, x.members.count m =
    if m < memo.members.size ∧ (memo.member m).group = g then 1 else 0

theorem consistent_empty : (empty : Memo ν).Consistent where
  led := led_empty
  member m hm := absurd hm (Nat.not_lt_zero m)
  listed g x hx := by simp [empty] at hx

/-- Groups of the same leader have the same row type. -/
theorem rowType_congr {g other : GroupId} (hl : memo.leader g = memo.leader other) :
    (memo.group g).rowType = (memo.group other).rowType := by
  unfold group
  rw [hl]
  rcases memo.groups[memo.leader other]? with _ | x
  · rfl
  · rfl

/-- The members of a group are those that belong to the group that stands for it. -/
theorem Consistent.mem_group_iff (h : memo.Consistent) {g : GroupId} {m : MemberId} :
    m ∈ (memo.group g).members ↔
      g < memo.groups.size ∧ m < memo.members.size ∧ (memo.member m).group = memo.leader g := by
  rcases Nat.lt_or_ge g memo.groups.size with hg | hg
  · have hlt := h.led.leader_lt hg
    have hcount := h.listed (memo.leader g) _ (Array.getElem?_eq_getElem hlt) m
    rw [group_eq_of_lt hlt, ← List.count_pos_iff, hcount]
    split
    · next hm => simp [hm, hg]
    · next hm => simp [hm]
  · rw [members_group_of_le (h.led.le_leader hg)]
    constructor
    · intro hm
      exact absurd hm List.not_mem_nil
    · rintro ⟨hlt, -⟩
      exact absurd hlt (Nat.not_lt.mpr hg)

theorem Consistent.lt_of_mem_group (h : memo.Consistent) {g : GroupId} {m : MemberId}
    (hm : m ∈ (memo.group g).members) : m < memo.members.size :=
  (h.mem_group_iff.mp hm).2.1

theorem Fits.group_lt {m : Member} (h : memo.Fits m) (hled : memo.Led) :
    m.group < memo.groups.size :=
  hled.parents_eq_some_iff_lt.mp ⟨_, h.group_live⟩

/-- A member has as many inputs as its operator takes. -/
theorem Fits.length_children {m : Member} (h : memo.Fits m) : m.children.length = m.op.arity := by
  have hlength := Operator.deriveRowType_length h.rowType
  rwa [List.length_map] at hlength

/-- A member fits wherever its group stands for itself and its inputs have the same row types. -/
theorem Fits.congr {other : Memo ν} {m m' : Member} (h : memo.Fits m) (hop : m'.op = m.op)
    (hinputs : m'.inputs = m.inputs) (hlive : other.parents[m'.group]? = some m'.group)
    (hgroup : (other.group m'.group).rowType = (memo.group m.group).rowType)
    (hlt : ∀ g ∈ m'.children, g < other.groups.size)
    (hchildren : m'.children.map (fun g => (other.group g).rowType) =
      m.children.map fun g => (memo.group g).rowType) : other.Fits m' where
  group_live := hlive
  children_lt := hlt
  length_inputs := by
    have hlength := congrArg List.length hchildren
    rw [List.length_map, List.length_map] at hlength
    rw [hinputs, h.length_inputs, hlength]
  rowType := by rw [hop, hchildren, hgroup, h.rowType]

/-- The index has no part in consistency. -/
theorem Consistent.withIndex (h : memo.Consistent) (index : MemberIndex) :
    Consistent { memo with index := index } where
  led := h.led.of_eq rfl rfl
  member m hm :=
    have ⟨hfits, hid⟩ := h.member m hm
    ⟨hfits.congr rfl rfl hfits.group_live rfl hfits.children_lt rfl, hid⟩
  listed := h.listed

/-! ## Merges -/

section Absorb

variable {root victim : GroupId}

/-- A group keeps its row type when groups of the same row type are merged. -/
theorem rowType_absorb (hled : memo.Led) (hr : memo.parents[root]? = some root)
    (hv : memo.parents[victim]? = some victim) (hlt : root < victim)
    (htype : (memo.group root).rowType = (memo.group victim).rowType) {g : GroupId}
    (hg : g < memo.groups.size) :
    ((memo.absorb root victim).group g).rowType = (memo.group g).rowType := by
  have hread := group_absorb hled hr hv hlt hg
  split at hread
  · next hmerged =>
      rw [hread.1]
      rcases hmerged with h | h
      · rw [htype]
        exact rowType_congr ((leader_of_self hv).trans h.symm)
      · exact rowType_congr ((leader_of_self hr).trans h.symm)
  · rw [hread]

/-- A member fits into the memo after a merge, in the group that stands for its own there. -/
theorem Fits.absorb {m : Member} (h : memo.Fits m) (hled : memo.Led)
    (hr : memo.parents[root]? = some root) (hv : memo.parents[victim]? = some victim)
    (hlt : root < victim) (htype : (memo.group root).rowType = (memo.group victim).rowType) :
    (memo.absorb root victim).Fits
      { m with group := if m.group = victim then root else m.group } := by
  have hother : ∀ x : GroupId, x ≠ victim →
      (memo.absorb root victim).parents[x]? = memo.parents[x]? := fun x hx =>
    Array.getElem?_setIfInBounds_ne (Ne.symm hx)
  have htypes := fun g => rowType_absorb (g := g) hled hr hv hlt htype
  refine h.congr rfl rfl ?_ ?_ ?_ ?_
  · dsimp only
    split
    · rw [hother root (Nat.ne_of_lt hlt), hr]
    · next hne => rw [hother _ hne, h.group_live]
  · dsimp only
    split
    · next heq =>
        rw [htypes root (hled.parents_eq_some_iff_lt.mp ⟨root, hr⟩), htype, heq]
    · exact htypes _ (h.group_lt hled)
  · intro g hg
    rw [size_absorb]
    exact h.children_lt g hg
  · exact List.map_congr_left fun g hg => htypes g (h.children_lt g hg)

/-- The members of both groups are listed by the one that stands for them after a merge. -/
theorem listed_absorb_iff (h : memo.Consistent) (hr : memo.parents[root]? = some root)
    (hv : memo.parents[victim]? = some victim) (hlt : root < victim) {g : GroupId} {x : Group ν}
    (hx : (memo.absorb root victim).groups[g]? = some x) (m : MemberId) :
    x.members.count m = if m < memo.members.size ∧
      (if (memo.member m).group = victim then root else (memo.member m).group) = g
        then 1 else 0 := by
  have hne : root ≠ victim := Nat.ne_of_lt hlt
  rw [getElem?_groups_absorb hr hv hne] at hx
  have hvictim : memo.groups[victim]? = some (memo.group victim) := by
    have hlt := h.led.parents_eq_some_iff_lt.mp ⟨victim, hv⟩
    rw [Array.getElem?_eq_getElem hlt]
    unfold group
    rw [leader_of_self hv, Array.getElem?_eq_getElem hlt]
    rfl
  -- the absorbed group lists nothing, the other one what both did, and all others what they did
  split at hx
  · next hg =>
      obtain ⟨y, -, rfl⟩ := Option.map_eq_some_iff.mp hx
      show List.count m [] = _
      rw [List.count_nil, if_neg]
      rintro ⟨-, hgroup⟩
      rw [hg] at hgroup
      split at hgroup
      · exact hne hgroup
      · next hno => exact hno hgroup
  · next hgv =>
      split at hx
      · next hg =>
          obtain ⟨y, hy, rfl⟩ := Option.map_eq_some_iff.mp hx
          have hcount := h.listed g y hy m
          have hmoved := h.listed victim _ hvictim m
          unfold Group.absorbing
          rw [(foldl_require _ _).2, List.count_append, hcount, hmoved, hg]
          by_cases hm : m < memo.members.size
          · by_cases hgroup : (memo.member m).group = victim
            · simp [hm, hgroup, Ne.symm hne]
            · simp [hm, hgroup]
          · simp [hm]
      · next hgr =>
          rw [h.listed g x hx m]
          by_cases hgroup : (memo.member m).group = victim
          · rw [if_neg (fun hm => hgv (hm.2.symm.trans hgroup)), if_pos hgroup,
              if_neg (fun hm => hgr hm.2.symm)]
          · rw [if_neg hgroup]

/-- Groups of the same row type may be merged. -/
theorem consistent_absorb (h : memo.Consistent) (hr : memo.parents[root]? = some root)
    (hv : memo.parents[victim]? = some victim) (hlt : root < victim)
    (htype : (memo.group root).rowType = (memo.group victim).rowType) :
    (memo.absorb root victim).Consistent := by
  have hsize : (memo.absorb root victim).members.size = memo.members.size := Array.size_map ..
  constructor
  · exact led_absorb h.led (Nat.le_of_lt hlt)
  · intro m hm
    rw [hsize] at hm
    obtain ⟨hfits, hid⟩ := h.member m hm
    rw [member_absorb hm]
    exact ⟨hfits.absorb h.led hr hv hlt htype, hid⟩
  · intro g x hx m
    rw [listed_absorb_iff h hr hv hlt hx, hsize]
    by_cases hm : m < memo.members.size
    · rw [member_absorb hm]
    · rw [if_neg (fun hand => hm hand.1), if_neg (fun hand => hm hand.1)]

end Absorb

/-- Members may read the leaders of their inputs instead of these. -/
theorem consistent_readLeaders (h : memo.Consistent) : memo.readLeaders.Consistent := by
  have hsize : memo.readLeaders.members.size = memo.members.size := Array.size_map ..
  constructor
  · exact led_readLeaders h.led
  · intro m hm
    rw [hsize] at hm
    obtain ⟨hfits, hid⟩ := h.member m hm
    rw [member_readLeaders hm]
    refine ⟨hfits.congr rfl rfl hfits.group_live rfl ?_ ?_, hid⟩
    · intro g hg
      obtain ⟨child, hchild, rfl⟩ := List.mem_map.mp hg
      exact h.led.leader_lt (hfits.children_lt child hchild)
    · rw [List.map_map]
      exact List.map_congr_left fun g _ => rowType_congr (h.led.leader_leader g)
  · intro g x hx m
    rw [h.listed g x hx m, hsize]
    by_cases hm : m < memo.members.size
    · rw [member_readLeaders hm]
    · rw [if_neg (fun hand => hm hand.1), if_neg (fun hand => hm hand.1)]

/-! ## New members and groups -/

/-- A member may be added to a group that it fits into. -/
theorem consistent_pushMember (h : memo.Consistent) {g : GroupId} {op : Operator} {c : Convention}
    {children : List GroupId} {inputs : List Convention} (hg : memo.parents[g]? = some g)
    (hlt : ∀ child ∈ children, child < memo.groups.size)
    (hlength : inputs.length = children.length)
    (htype : op.deriveRowType (children.map fun child => (memo.group child).rowType) =
      .ok (memo.group g).rowType) : (memo.pushMember g op c children inputs).Consistent := by
  have hlead : memo.leader g = g := leader_of_self hg
  have hglt : memo.leader g < memo.groups.size := by
    rw [hlead]
    exact h.led.parents_eq_some_iff_lt.mp ⟨g, hg⟩
  have hgroups : (memo.pushMember g op c children inputs).groups.size = memo.groups.size :=
    Array.size_modify ..
  have hmembers : (memo.pushMember g op c children inputs).members.size = memo.members.size + 1 :=
    Array.size_push ..
  have htypes : ∀ other, ((memo.pushMember g op c children inputs).group other).rowType =
      (memo.group other).rowType := by
    intro other
    rw [group_pushMember hglt]
    split
    · rfl
    · rfl
  constructor
  · exact led_pushMember h.led g op c children inputs
  · intro m hm
    rw [hmembers] at hm
    rw [member_pushMember]
    split
    · next heq =>
        refine ⟨⟨hg, fun child hchild => hgroups ▸ hlt child hchild, hlength, ?_⟩, heq.symm⟩
        simp only [htypes]
        exact htype
    · next hne =>
        have hold : m < memo.members.size := Nat.lt_of_le_of_ne (Nat.le_of_lt_succ hm) hne
        obtain ⟨hfits, hid⟩ := h.member m hold
        refine ⟨hfits.congr rfl rfl hfits.group_live (htypes _)
          (fun child hchild => hgroups ▸ hfits.children_lt child hchild) ?_, hid⟩
        exact List.map_congr_left fun child _ => htypes child
  · intro other x hx m
    rw [getElem?_groups_pushMember, hlead] at hx
    rw [member_pushMember, hmembers]
    -- the new member is listed by its group, and every other one where it was
    split at hx
    · next heq =>
        obtain ⟨y, hy, rfl⟩ := Option.map_eq_some_iff.mp hx
        have hcount := h.listed other y hy m
        rw [List.count_append, hcount, List.count_singleton]
        by_cases hm : m = memo.members.size
        · subst hm
          simp [heq]
        · have hiff : m < memo.members.size + 1 ↔ m < memo.members.size := by omega
          have hbeq : (memo.members.size == m) = false := beq_false_of_ne (Ne.symm hm)
          simp [hm, hbeq, hiff]
    · next hne =>
        rw [h.listed other x hx m]
        by_cases hm : m = memo.members.size
        · subst hm
          simp [Ne.symm hne]
        · have hiff : m < memo.members.size + 1 ↔ m < memo.members.size := by omega
          simp [hm, hiff]

/-- A new group, without members, may have any row type. -/
theorem consistent_pushGroup (h : memo.Consistent) (t : RowType) :
    (memo.pushGroup t).Consistent := by
  have hgroups : (memo.pushGroup t).groups.size = memo.groups.size + 1 := Array.size_push ..
  have htypes : ∀ g < memo.groups.size,
      ((memo.pushGroup t).group g).rowType = (memo.group g).rowType := fun g hg => by
    rw [group_pushGroup h.led t g (Nat.ne_of_lt hg)]
  constructor
  · exact led_pushGroup h.led t
  · intro m hm
    obtain ⟨hfits, hid⟩ := h.member m hm
    have hglt := hfits.group_lt h.led
    refine ⟨hfits.congr rfl rfl ?_ (htypes _ hglt) ?_ ?_, hid⟩
    · show (memo.parents.push _)[(memo.member m).group]? = _
      rw [Array.getElem?_push, h.led.size, if_neg (Nat.ne_of_lt hglt)]
      exact hfits.group_live
    · intro child hchild
      rw [hgroups]
      exact Nat.lt_succ_of_lt (hfits.children_lt child hchild)
    · exact List.map_congr_left fun child hchild => htypes child (hfits.children_lt child hchild)
  · intro g x hx m
    change (memo.groups.push _)[g]? = some x at hx
    rw [Array.getElem?_push] at hx
    split at hx
    · next heq =>
        cases hx
        show List.count m [] = _
        rw [List.count_nil, if_neg]
        rintro ⟨hm, hgroup⟩
        exact Nat.ne_of_lt ((h.member m hm).1.group_lt h.led) (hgroup.trans heq)
    · exact h.listed g x hx m

/-! ## Notes on groups and members -/

/-- Whatever changes neither members nor row types of groups keeps a memo consistent. -/
theorem Consistent.of_sameUpTo {other : Memo ν} (h : memo.Consistent) {note : Group ν → Group ν}
    (hsame : SameUpTo note other memo)
    (hnote : ∀ x, (note x).rowType = x.rowType ∧ (note x).members = x.members) :
    other.Consistent := by
  have htypes : ∀ g, (other.group g).rowType = (memo.group g).rowType := fun g => by
    rw [← (hnote (other.group g)).1, hsame.group g, (hnote _).1]
  constructor
  · exact hsame.symm.led h.led
  · intro m hm
    rw [hsame.members] at hm
    obtain ⟨hfits, hid⟩ := h.member m hm
    rw [hsame.member]
    refine ⟨hfits.congr rfl rfl ?_ (htypes _) ?_ ?_, hid⟩
    · rw [hsame.parents]
      exact hfits.group_live
    · rw [hsame.size]
      exact hfits.children_lt
    · exact List.map_congr_left fun child _ => htypes child
  · intro g x hx m
    have hg := hsame.groups g
    rw [hx, Option.map_some] at hg
    obtain ⟨y, hy, hxy⟩ := Option.map_eq_some_iff.mp hg.symm
    rw [← (hnote x).2, ← hxy, (hnote y).2, hsame.members, hsame.member]
    exact h.listed g y hy m

/-! ## Groups that were merged -/

/-- A group that no longer stands for itself is needed in no convention, and has neither winners nor
statistics. -/
def Tidy (memo : Memo ν) : Prop :=
  ∀ (g : GroupId) (x : Group ν), memo.groups[g]? = some x → memo.parents[g]? ≠ some g →
    x.required = [] ∧ x.winners = [] ∧ x.statistics = none

theorem tidy_empty : (empty : Memo ν).Tidy := fun g x hx => by simp [empty] at hx

theorem Tidy.absorb (h : memo.Tidy) {root victim : GroupId} (hr : memo.parents[root]? = some root)
    (hv : memo.parents[victim]? = some victim) (hlt : root < victim) :
    (memo.absorb root victim).Tidy := by
  intro g x hx hdead
  have hother : ∀ i : GroupId, i ≠ victim →
      (memo.absorb root victim).parents[i]? = memo.parents[i]? := fun i hi =>
    Array.getElem?_setIfInBounds_ne (Ne.symm hi)
  rw [getElem?_groups_absorb hr hv (Nat.ne_of_lt hlt)] at hx
  split at hx
  · obtain ⟨y, -, rfl⟩ := Option.map_eq_some_iff.mp hx
    exact ⟨rfl, rfl, rfl⟩
  · next hg =>
      rw [hother g hg] at hdead
      split at hx
      · next hroot => exact absurd (hroot ▸ hr) hdead
      · exact h g x hx hdead

/-- What is changed in groups that stand for themselves leaves the other ones alone. -/
theorem Tidy.modifyGroup (h : memo.Tidy) (hled : memo.Led) (g : GroupId) (f : Group ν → Group ν) :
    (memo.modifyGroup g f).Tidy := by
  intro i x hx hdead
  change memo.parents[i]? ≠ some i at hdead
  change (memo.groups.modify (memo.leader g) f)[i]? = some x at hx
  rw [Array.getElem?_modify] at hx
  split at hx
  · next heq =>
      obtain ⟨y, hy, -⟩ := Option.map_eq_some_iff.mp hx
      have hi : i < memo.groups.size := (Array.getElem?_eq_some_iff.mp hy).1
      have hg : g < memo.groups.size := by
        rcases Nat.lt_or_ge g memo.groups.size with hg | hg
        · exact hg
        · exact absurd (heq ▸ hled.le_leader hg) (Nat.not_le_of_lt hi)
      exact absurd (heq ▸ hled.parents_leader hg) hdead
  · exact h i x hx hdead

theorem Tidy.pushGroup (h : memo.Tidy) (hled : memo.Led) (t : RowType) :
    (memo.pushGroup t).Tidy := by
  intro g x hx hdead
  change (memo.groups.push _)[g]? = some x at hx
  change (memo.parents.push _)[g]? ≠ some g at hdead
  rw [Array.getElem?_push] at hx hdead
  rw [hled.size] at hdead
  split at hx
  · cases hx
    exact ⟨rfl, rfl, rfl⟩
  · next hne =>
      rw [if_neg hne] at hdead
      exact h g x hx hdead

/-! ## Between two operations -/

/-- What an index knows of members: the member that it has for a key has this key. -/
def Knows (memo : Memo ν) (index : MemberIndex) : Prop :=
  ∀ key m, index.get? key = some m → m < memo.members.size ∧ (memo.member m).key = key

/-- A memo between two operations: it is consistent, all inputs stand for themselves, and the
index has the key of every member for some member of the same group. -/
structure Settled (memo : Memo ν) : Prop extends Consistent memo where
  children_live : ∀ m < memo.members.size, ∀ g ∈ (memo.member m).children,
    memo.parents[g]? = some g
  knows : memo.Knows memo.index
  indexed : ∀ m < memo.members.size, ∃ first, memo.index.get? (memo.member m).key = some first ∧
    (memo.member first).group = (memo.member m).group

theorem settled_empty : (empty : Memo ν).Settled where
  toConsistent := consistent_empty
  children_live m hm := absurd hm (Nat.not_lt_zero m)
  knows key m h := by cases h
  indexed m hm := absurd hm (Nat.not_lt_zero m)

/-- The inputs of a member are the leaders of themselves. -/
theorem Settled.map_leader (h : memo.Settled) {m : MemberId} (hm : m < memo.members.size) :
    (memo.member m).children.map memo.leader = (memo.member m).children :=
  (List.map_congr_left fun g hg => leader_of_self (h.children_live m hm g hg)).trans
    (List.map_id _)

/-- Members of the same key are in the same group. -/
theorem Settled.group_eq_of_key (h : memo.Settled) {m m' : MemberId} (hm : m < memo.members.size)
    (hm' : m' < memo.members.size) (hkey : (memo.member m).key = (memo.member m').key) :
    (memo.member m).group = (memo.member m').group := by
  obtain ⟨first, hfirst, hgroup⟩ := h.indexed m hm
  obtain ⟨first', hfirst', hgroup'⟩ := h.indexed m' hm'
  rw [hkey, hfirst', Option.some.injEq] at hfirst
  rw [← hgroup, ← hfirst, hgroup']

/-- A member may be added to a group that it fits into, under a key that no other one has. -/
theorem settled_pushMember (h : memo.Settled) {g : GroupId} {op : Operator} {c : Convention}
    {children : List GroupId} {inputs : List Convention} (hg : memo.parents[g]? = some g)
    (hlive : ∀ child ∈ children, memo.parents[child]? = some child)
    (hlength : inputs.length = children.length)
    (htype : op.deriveRowType (children.map fun child => (memo.group child).rowType) =
      .ok (memo.group g).rowType) (hnew : memo.index.get? (.of op c children inputs) = none) :
    (memo.pushMember g op c children inputs).Settled := by
  have hmembers : (memo.pushMember g op c children inputs).members.size = memo.members.size + 1 :=
    Array.size_push ..
  have hold : ∀ m < memo.members.size,
      (memo.pushMember g op c children inputs).member m = memo.member m := fun m hm => by
    rw [member_pushMember, if_neg (Nat.ne_of_lt hm)]
  have hself : (memo.pushMember g op c children inputs).member memo.members.size =
      ⟨memo.members.size, g, op, c, children, inputs, []⟩ := by
    rw [member_pushMember, if_pos rfl]
  have hindex : ∀ key, (memo.pushMember g op c children inputs).index.get? key =
      if MemberKey.of op c children inputs = key then some memo.members.size
      else memo.index.get? key := fun key => MemberIndex.get?_insert_member _ _ key _
  refine ⟨consistent_pushMember h.toConsistent hg (fun child hchild =>
    h.led.parents_eq_some_iff_lt.mp ⟨child, hlive child hchild⟩) hlength htype, ?_, ?_, ?_⟩
  · intro m hm
    rw [hmembers] at hm
    rcases Nat.lt_succ_iff_lt_or_eq.mp hm with hm | rfl
    · rw [hold m hm]
      exact h.children_live m hm
    · rw [hself]
      exact hlive
  · intro key m hm
    rw [hindex] at hm
    rw [hmembers]
    split at hm
    · next heq =>
        cases hm
        rw [hself]
        exact ⟨Nat.lt_succ_self _, heq⟩
    · obtain ⟨hlt, hkey⟩ := h.knows key m hm
      rw [hold m hlt]
      exact ⟨Nat.lt_succ_of_lt hlt, hkey⟩
  · intro m hm
    rw [hmembers] at hm
    rcases Nat.lt_succ_iff_lt_or_eq.mp hm with hm | rfl
    · obtain ⟨first, hfirst, hgroup⟩ := h.indexed m hm
      have hlt := (h.knows _ _ hfirst).1
      refine ⟨first, ?_, ?_⟩
      · -- the new key is not that of an old member
        rw [hold m hm, hindex, if_neg, hfirst]
        intro heq
        rw [← heq, hnew] at hfirst
        cases hfirst
      · rw [hold m hm, hold first hlt, hgroup]
    · rw [hself]
      exact ⟨memo.members.size, by rw [hindex]; exact if_pos rfl, by rw [hself]⟩

theorem settled_pushGroup (h : memo.Settled) (t : RowType) : (memo.pushGroup t).Settled where
  toConsistent := consistent_pushGroup h.toConsistent t
  children_live m hm g hg := by
    have hlive := h.children_live m hm g hg
    show (memo.parents.push _)[g]? = some g
    rw [Array.getElem?_push, if_neg, hlive]
    intro heq
    rw [heq, Array.getElem?_eq_none (Nat.le_refl _)] at hlive
    cases hlive
  knows := h.knows
  indexed := h.indexed

/-- Whatever changes neither members nor row types of groups keeps a memo settled. -/
theorem Settled.of_sameUpTo {other : Memo ν} (h : memo.Settled) {note : Group ν → Group ν}
    (hsame : SameUpTo note other memo)
    (hnote : ∀ x, (note x).rowType = x.rowType ∧ (note x).members = x.members) :
    other.Settled := by
  refine ⟨h.toConsistent.of_sameUpTo hsame hnote, ?_, ?_, ?_⟩
  · intro m hm
    rw [hsame.members] at hm
    rw [hsame.member, hsame.parents]
    exact h.children_live m hm
  · intro key m hm
    rw [hsame.index] at hm
    rw [hsame.members, hsame.member]
    exact h.knows key m hm
  · intro m hm
    rw [hsame.members] at hm
    obtain ⟨first, hfirst, hgroup⟩ := h.indexed m hm
    refine ⟨first, ?_, ?_⟩
    · rw [hsame.index, hsame.member, hfirst]
    · rw [hsame.member, hsame.member, hgroup]

/-- The applications of rules have no part in what a settled memo is. -/
theorem Settled.markApplied (h : memo.Settled) (m : MemberId) (hash : UInt64) :
    (memo.markApplied m hash).Settled := by
  have hsize : (memo.markApplied m hash).members.size = memo.members.size := Array.size_modify ..
  have hread := fun i => memo.member_markApplied m i hash
  have hkey : ∀ i, ((memo.markApplied m hash).member i).key = (memo.member i).key := by
    intro i
    obtain ⟨applied, hi⟩ := hread i
    rw [hi]
    rfl
  have hgroup : ∀ i, ((memo.markApplied m hash).member i).group = (memo.member i).group := by
    intro i
    obtain ⟨applied, hi⟩ := hread i
    rw [hi]
  refine ⟨⟨led_markApplied h.led m hash, ?_, ?_⟩, ?_, ?_, ?_⟩
  · intro i hi
    rw [hsize] at hi
    obtain ⟨hfits, hid⟩ := h.member i hi
    obtain ⟨applied, hi⟩ := hread i
    rw [hi]
    exact ⟨hfits.congr rfl rfl hfits.group_live rfl hfits.children_lt rfl, hid⟩
  · intro g x hx i
    rw [h.listed g x hx i, hsize, hgroup]
  · intro i hi g hg
    rw [hsize] at hi
    obtain ⟨applied, hread⟩ := hread i
    rw [hread] at hg
    exact h.children_live i hi g hg
  · intro key i hi
    rw [hsize, hkey]
    exact h.knows key i hi
  · intro i hi
    rw [hsize] at hi
    obtain ⟨first, hfirst, hsame⟩ := h.indexed i hi
    exact ⟨first, by rw [hkey]; exact hfirst, by rw [hgroup, hgroup, hsame]⟩

end Memo

end QueryPlanner
