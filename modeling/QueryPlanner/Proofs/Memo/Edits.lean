/-
# What edits of the memo leave behind

Adding members and merging groups are sequences of a few elementary changes. Each of them is read
back here once: which leaders there are after it, which members, and what the groups hold; and each
operation is told by the changes it is made of.

* `leader_absorb`, `getElem?_groups_absorb`, `member_absorb` : after one group absorbed another;
* `group_pushMember`, `group_pushGroup` : after a new member, and after a new group;
* `run_union_cases`, `run_merge`, `run_add`, `run_addTo` : what the operations do to the memo.
-/
import QueryPlanner.Proofs.Memo.Frame

namespace QueryPlanner

/-- What is left of a group that was absorbed. -/
def Group.emptied {ν : Type} (g : Group ν) : Group ν :=
  { g with members := [], required := [], winners := [], statistics := none }

/-- A group that absorbed another one. -/
def Group.absorbing {ν : Type} (gone g : Group ν) : Group ν :=
  gone.required.foldl Group.require { g with
    members := g.members ++ gone.members
    winners := []
    statistics := g.statistics.or gone.statistics }

namespace Memo

variable {ν : Type} {memo : Memo ν}

/-! ## Merges -/

/-- Requiring conventions changes neither the row type of a group nor its members. -/
theorem foldl_require (g : Group ν) (required : List Convention) :
    (required.foldl Group.require g).rowType = g.rowType ∧
      (required.foldl Group.require g).members = g.members := by
  induction required generalizing g with
  | nil => exact ⟨rfl, rfl⟩
  | cons c rest ih =>
      rw [List.foldl_cons, (ih _).1, (ih _).2]
      unfold Group.require
      split
      · exact ⟨rfl, rfl⟩
      · exact ⟨rfl, rfl⟩

section Absorb

variable {root victim : GroupId}

/-- The groups that the absorbed one stood for are those that the other one stands for now, too. -/
theorem leader_absorb (hled : memo.Led) (hr : memo.parents[root]? = some root)
    (hv : memo.parents[victim]? = some victim) (hlt : root < victim) (g : GroupId) :
    (memo.absorb root victim).leader g =
      if memo.leader g = victim then root else memo.leader g := by
  have hafter : (memo.absorb root victim).Led := led_absorb hled (Nat.le_of_lt hlt)
  have hvictim : victim < memo.parents.size := (Array.getElem?_eq_some_iff.mp hv).1
  have hother : ∀ x : GroupId, x ≠ victim →
      (memo.absorb root victim).parents[x]? = memo.parents[x]? := fun x hx =>
    Array.getElem?_setIfInBounds_ne (Ne.symm hx)
  induction g using Nat.strongRecOn with
  | ind g ih =>
      by_cases hg : g = victim
      · -- the absorbed group points to the other one, which goes on to point to itself
        have hparent : (memo.absorb root victim).parents[g]? = some root := by
          rw [hg]
          exact Array.getElem?_setIfInBounds_self_of_lt hvictim
        have hroot : (memo.absorb root victim).parents[root]? = some root := by
          rw [hother root (Nat.ne_of_lt hlt), hr]
        rw [hafter.leader_of_parent hparent, leader_of_self hroot, hg, leader_of_self hv, if_pos rfl]
      · rcases hp : memo.parents[g]? with _ | p
        · rw [leader_of_none hp, if_neg hg]
          exact leader_of_none ((hother g hg).trans hp)
        · have hp' : (memo.absorb root victim).parents[g]? = some p := (hother g hg).trans hp
          by_cases hpg : p = g
          · rw [hpg] at hp hp'
            rw [leader_of_self hp, leader_of_self hp', if_neg hg]
          · rw [hafter.leader_of_parent hp', hled.leader_of_parent hp]
            exact ih p (Nat.lt_of_le_of_ne (hled.le g p hp) hpg)

/-- The groups as they are stored after a merge. -/
theorem getElem?_groups_absorb (hr : memo.parents[root]? = some root)
    (hv : memo.parents[victim]? = some victim) (hne : root ≠ victim) (i : Nat) :
    (memo.absorb root victim).groups[i]? =
      if i = victim then memo.groups[i]?.map Group.emptied
      else if i = root then memo.groups[i]?.map (Group.absorbing (memo.group victim))
      else memo.groups[i]? := by
  have hgroups : (memo.absorb root victim).groups =
      (memo.groups.modify victim Group.emptied).modify root
        (Group.absorbing (memo.group victim)) := by
    unfold absorb modifyGroup
    dsimp only
    rw [leader_of_self hv]
    show Array.modify _ (memo.leader root) _ = _
    rw [leader_of_self hr]
    rfl
  rw [hgroups, Array.getElem?_modify, Array.getElem?_modify]
  by_cases hi : i = victim
  · rw [if_neg (fun h => hne (h.trans hi)), if_pos hi.symm, if_pos hi]
  · rw [if_neg (Ne.symm hi), if_neg hi]
    by_cases hir : i = root
    · rw [if_pos hir.symm, if_pos hir]
    · rw [if_neg (Ne.symm hir), if_neg hir]

/-- What a group is after a merge: the groups of both are the one that absorbed the other, and every
other one is what it was. -/
theorem group_absorb_eq (hled : memo.Led) (hr : memo.parents[root]? = some root)
    (hv : memo.parents[victim]? = some victim) (hlt : root < victim) {g : GroupId}
    (hg : g < memo.groups.size) :
    (memo.absorb root victim).group g =
      if memo.leader g = victim ∨ memo.leader g = root then
        Group.absorbing (memo.group victim) (memo.group root)
      else memo.group g := by
  have hroot : root < memo.groups.size := hled.parents_eq_some_iff_lt.mp ⟨root, hr⟩
  have hne : root ≠ victim := Nat.ne_of_lt hlt
  have hleader := leader_absorb hled hr hv hlt g
  have hread : ∀ i : Nat, (memo.absorb root victim).leader g = i → ∀ x,
      (memo.absorb root victim).groups[i]? = some x → (memo.absorb root victim).group g = x := by
    intro i hi x hx
    unfold group
    rw [hi, hx]
    rfl
  -- the root points to itself, so that it is stored under its own number
  have hrootGroup : memo.groups[root]? = some (memo.group root) := by
    rw [Array.getElem?_eq_getElem hroot]
    unfold group
    rw [leader_of_self hr, Array.getElem?_eq_getElem hroot]
    rfl
  by_cases hmerged : memo.leader g = victim ∨ memo.leader g = root
  · rw [if_pos hmerged]
    have hlead : (memo.absorb root victim).leader g = root := by
      rw [hleader]
      rcases hmerged with h | h
      · rw [if_pos h]
      · rw [if_neg (by rw [h]; exact hne), h]
    refine hread root hlead _ ?_
    rw [getElem?_groups_absorb hr hv hne, if_neg hne, if_pos rfl, hrootGroup, Option.map_some]
  · rw [if_neg hmerged]
    rw [not_or] at hmerged
    have hlead : (memo.absorb root victim).leader g = memo.leader g := by
      rw [hleader, if_neg hmerged.1]
    refine hread _ hlead _ ?_
    rw [getElem?_groups_absorb hr hv hne, if_neg hmerged.1, if_neg hmerged.2,
      group_eq_of_lt (hled.leader_lt hg), Array.getElem?_eq_getElem (hled.leader_lt hg)]

/-- What a group and the members of it are after a merge: the absorbing group has the members of
both, and every other one is what it was. -/
theorem group_absorb (hled : memo.Led) (hr : memo.parents[root]? = some root)
    (hv : memo.parents[victim]? = some victim) (hlt : root < victim) {g : GroupId}
    (hg : g < memo.groups.size) :
    if memo.leader g = victim ∨ memo.leader g = root then
      ((memo.absorb root victim).group g).rowType = (memo.group root).rowType ∧
        ((memo.absorb root victim).group g).members =
          (memo.group root).members ++ (memo.group victim).members
    else (memo.absorb root victim).group g = memo.group g := by
  have hgroup := group_absorb_eq hled hr hv hlt hg
  split at hgroup
  · next hmerged =>
      rw [if_pos hmerged, hgroup]
      unfold Group.absorbing
      rw [(foldl_require _ _).1, (foldl_require _ _).2]
      exact ⟨rfl, rfl⟩
  · next hmerged =>
      rw [if_neg hmerged]
      exact hgroup

/-- A member after a merge is what it was, up to its group, if that was absorbed. -/
theorem member_absorb {m : MemberId} (hm : m < memo.members.size) :
    (memo.absorb root victim).member m = { memo.member m with
      group := if (memo.member m).group = victim then root else (memo.member m).group } := by
  show ((memo.members.map _)[m]?).getD default = _
  unfold member
  rw [Array.getElem?_map, Array.getElem?_eq_getElem hm, Option.map_some, Option.getD_some,
    Option.getD_some]
  split
  · rfl
  · rfl

end Absorb

theorem member_readLeaders {m : MemberId} (hm : m < memo.members.size) :
    memo.readLeaders.member m = { memo.member m with
      children := (memo.member m).children.map memo.leader } := by
  show ((memo.members.map _)[m]?).getD default = _
  unfold member
  rw [Array.getElem?_map, Array.getElem?_eq_getElem hm]
  rfl

/-! ## Marks -/

/-- Marking an application changes nothing else of any member. -/
theorem member_markApplied (memo : Memo ν) (m other : MemberId) (hash : UInt64) :
    ∃ applied, (memo.markApplied m hash).member other =
      { memo.member other with applied := applied } := by
  unfold member markApplied
  rw [Array.getElem?_modify]
  split
  · next heq =>
      subst heq
      rcases memo.members[m]? with _ | x
      · exact ⟨_, rfl⟩
      · exact ⟨_, rfl⟩
  · exact ⟨_, rfl⟩

/-! ## New members -/

section Push

variable {g : GroupId} {op : Operator} {c : Convention} {children : List GroupId}
  {inputs : List Convention}

theorem member_pushMember (m : MemberId) : (memo.pushMember g op c children inputs).member m =
    if m = memo.members.size then ⟨memo.members.size, g, op, c, children, inputs, []⟩
    else memo.member m := by
  show ((memo.members.push _)[m]?).getD default = _
  rw [Array.getElem?_push]
  split
  · rfl
  · rfl

/-- A new member shows in the group that it is added to, and in no other one. -/
theorem group_pushMember (hg : memo.leader g < memo.groups.size) (other : GroupId) :
    (memo.pushMember g op c children inputs).group other =
      if memo.leader other = memo.leader g then
        { memo.group other with members := (memo.group other).members ++ [memo.members.size] }
      else memo.group other :=
  group_modifyGroup hg (fun x => { x with members := x.members ++ [memo.members.size] }) other

/-- The groups as they are stored after a new member. -/
theorem getElem?_groups_pushMember (i : Nat) :
    (memo.pushMember g op c children inputs).groups[i]? =
      if i = memo.leader g then
        memo.groups[i]?.map fun x => { x with members := x.members ++ [memo.members.size] }
      else memo.groups[i]? := by
  show (memo.groups.modify (memo.leader g) _)[i]? = _
  rw [Array.getElem?_modify]
  by_cases hi : i = memo.leader g
  · rw [if_pos hi.symm, if_pos hi]
  · rw [if_neg (Ne.symm hi), if_neg hi]

end Push

/-! ## New groups -/

theorem leader_pushGroup_self (hled : memo.Led) (t : RowType) :
    (memo.pushGroup t).leader memo.groups.size = memo.groups.size := by
  rw [leader_pushGroup memo t _ hled.size, if_pos rfl]

theorem leader_pushGroup_self_lt (hled : memo.Led) (t : RowType) :
    (memo.pushGroup t).leader memo.groups.size < (memo.pushGroup t).groups.size := by
  rw [leader_pushGroup_self hled]
  exact Nat.lt_of_lt_of_eq (Nat.lt_succ_self _) (Array.size_push ..).symm

theorem group_pushGroup_self (hled : memo.Led) (t : RowType) :
    (memo.pushGroup t).group memo.groups.size = ⟨memo.groups.size, [], t, [], [], none⟩ := by
  unfold group
  rw [leader_pushGroup_self hled]
  show ((memo.groups.push _)[memo.groups.size]?).getD _ = _
  rw [Array.getElem?_push, if_pos rfl]
  rfl

theorem group_pushGroup (hled : memo.Led) (t : RowType) (g : GroupId) (hg : g ≠ memo.groups.size) :
    (memo.pushGroup t).group g = memo.group g := by
  have hlead : (memo.pushGroup t).leader g = memo.leader g := by
    rw [leader_pushGroup memo t g hled.size, if_neg hg]
  have hne : memo.leader g ≠ memo.groups.size := by
    rcases Nat.lt_or_ge g memo.groups.size with hlt | hge
    · exact Nat.ne_of_lt (hled.leader_lt hlt)
    · rw [leader_of_none (Array.getElem?_eq_none (hled.size ▸ hge))]
      exact hg
  conv_lhs => unfold group
  rw [hlead]
  show ((memo.groups.push _)[memo.leader g]?).getD _ = _
  rw [Array.getElem?_push, if_neg hne]
  rfl

/-- A new group with a member has its row type, and the others keep theirs. -/
theorem rowType_pushed (hled : memo.Led) {op : Operator} {c : Convention} {children : List GroupId}
    {inputs : List Convention} {t : RowType} (x : GroupId) :
    (((memo.pushGroup t).pushMember memo.groups.size op c children inputs).group x).rowType =
      if x = memo.groups.size then t else (memo.group x).rowType := by
  have hpushed : (((memo.pushGroup t).pushMember memo.groups.size op c children inputs).group
      x).rowType = ((memo.pushGroup t).group x).rowType := by
    rw [group_pushMember (leader_pushGroup_self_lt hled t)]
    split
    · rfl
    · rfl
  rw [hpushed]
  split
  · next heq => rw [heq, group_pushGroup_self hled]
  · next hne => rw [group_pushGroup hled t x hne]

/-! ## Operations -/

/-- A union of two groups that are the same already does nothing; one of others lets the one of
the leaders that has the smaller number absorb the other one, if their row types agree. -/
theorem run_union_cases (a b : GroupId) (origin : String) (memo : Memo ν) :
    memo.leader a = memo.leader b ∧ (union a b origin).run.run memo = (.ok (), memo) ∨
    ∃ root victim, root < victim ∧
      (root = memo.leader a ∧ victim = memo.leader b ∨
        root = memo.leader b ∧ victim = memo.leader a) ∧
      (union a b origin).run.run memo =
        if (memo.group root).rowType ≠ (memo.group victim).rowType then
          (.error (.rowTypeMismatch origin (memo.group root).rowType (memo.group victim).rowType),
            memo)
        else (.ok (), memo.absorb root victim) := by
  rw [run_union]
  dsimp only
  by_cases hab : memo.leader a = memo.leader b
  · rw [if_pos hab]
    exact Or.inl ⟨hab, rfl⟩
  · rw [if_neg hab]
    refine Or.inr ⟨_, _, ?_, ?_, rfl⟩
    all_goals
      rcases Nat.lt_or_gt_of_ne hab with hlt | hlt
    · rwa [show Nat.min _ _ = memo.leader a from Nat.min_eq_left (Nat.le_of_lt hlt),
        show Nat.max _ _ = memo.leader b from Nat.max_eq_right (Nat.le_of_lt hlt)]
    · rwa [show Nat.min _ _ = memo.leader b from Nat.min_eq_right (Nat.le_of_lt hlt),
        show Nat.max _ _ = memo.leader a from Nat.max_eq_left (Nat.le_of_lt hlt)]
    · exact Or.inl ⟨Nat.min_eq_left (Nat.le_of_lt hlt), Nat.max_eq_right (Nat.le_of_lt hlt)⟩
    · exact Or.inr ⟨Nat.min_eq_right (Nat.le_of_lt hlt), Nat.max_eq_left (Nat.le_of_lt hlt)⟩

/-- What adding a member in a group of its own does: nothing if it is there already, or if no
row type can be derived for it. -/
theorem run_add (op : Operator) (c : Convention) (children : List GroupId)
    (inputs : List Convention) (memo : Memo ν) :
    (add op c children inputs).run.run memo =
      match memo.index.get? (.of op c (children.map memo.leader) inputs) with
      | some m => (.ok ((memo.member m).group, m), memo)
      | none =>
          match memo.deriveRowType op (children.map memo.leader) inputs with
          | .error e => (.error e, memo)
          | .ok t => (.ok (memo.groups.size, memo.members.size),
              (memo.pushGroup t).pushMember memo.groups.size op c (children.map memo.leader)
                inputs) := by
  unfold add
  rw [run_bind_of_ok (show (get : Edit ν (Memo ν)).run.run memo = (.ok memo, memo) from rfl)]
  dsimp only
  rcases memo.index.get? (.of op c (children.map memo.leader) inputs) with _ | m
  · dsimp only
    rw [run_bind]
    rcases memo.deriveRowType op (children.map memo.leader) inputs with e | t
    · rfl
    · rfl
  · rfl

/-- What adding a member to a group does: a merge if another group has it already, nothing if the
group itself has it, or if it has no row type or not that of the group. -/
theorem run_addTo (g : GroupId) (op : Operator) (c : Convention) (children : List GroupId)
    (inputs : List Convention) (origin : String) (memo : Memo ν) :
    (addTo g op c children inputs origin).run.run memo =
      match memo.index.get? (.of op c (children.map memo.leader) inputs) with
      | some m =>
          if (memo.member m).group ≠ memo.leader g then
            match (merge (memo.member m).group (memo.leader g) origin).run.run memo with
            | (.ok (), after) => (.ok m, after)
            | (.error e, after) => (.error e, after)
          else (.ok m, memo)
      | none =>
          match memo.deriveRowType op (children.map memo.leader) inputs with
          | .error e => (.error e, memo)
          | .ok t =>
              if t ≠ (memo.group (memo.leader g)).rowType then
                (.error (.rowTypeMismatch origin (memo.group (memo.leader g)).rowType t), memo)
              else (.ok memo.members.size,
                memo.pushMember (memo.leader g) op c (children.map memo.leader) inputs) := by
  unfold addTo
  rw [run_bind_of_ok (show (get : Edit ν (Memo ν)).run.run memo = (.ok memo, memo) from rfl)]
  dsimp only
  rcases memo.index.get? (.of op c (children.map memo.leader) inputs) with _ | m
  · dsimp only
    rw [run_bind]
    rcases memo.deriveRowType op (children.map memo.leader) inputs with e | t
    · rfl
    · dsimp only [run_lift]
      split <;> rfl
  · dsimp only
    split
    · rw [run_bind]
      rcases (merge (memo.member m).group (memo.leader g) origin).run.run memo with ⟨e | ⟨⟩, after⟩
      · rfl
      · rfl
    · rfl

/-- A merge makes two groups one, and rebuilds the index if it can. -/
theorem run_merge (a b : GroupId) (origin : String) (memo : Memo ν) :
    (merge a b origin).run.run memo =
      match (union a b origin).run.run memo with
      | (.ok (), between) => (rebuild origin (between.groups.size + 1)).run.run between
      | (.error e, between) => (.error e, between) := by
  unfold merge
  rw [run_bind]
  rcases (union a b origin).run.run memo with ⟨e | ⟨⟩, between⟩
  · rfl
  · rfl

/-! ## What operations keep -/

section Keeps

variable {P : Memo ν → Prop}

/-- A merge keeps what neither a new index nor the absorption of a group takes away. -/
theorem keeps_merge_of_absorb (hreindexed : ∀ memo, P memo → P memo.reindexed)
    (habsorb : ∀ memo root victim, P memo → P (memo.absorb root victim)) (a b : GroupId)
    (origin : String) : Keeps P (merge a b origin : Edit ν Unit) := by
  have hunion : ∀ a b, Keeps P (union a b origin : Edit ν Unit) := by
    intro a b memo h
    rcases run_union_cases a b origin memo with ⟨-, hrun⟩ | ⟨root, victim, -, -, hrun⟩
    · rw [hrun]
      exact h
    · rw [hrun]
      split
      · exact h
      · exact habsorb memo root victim h
  exact (hunion a b).bind fun _ => keeps_get.bind fun memo =>
    keeps_rebuild hreindexed (fun memo a b h _ => hunion a b _ (hreindexed memo h)) _

variable {op : Operator} {c : Convention} {inputs : List Convention}

/-- Adding a member in a group of its own keeps what a new group with the member does not take away. -/
theorem keeps_add_of_push (hpush : ∀ memo t children, P memo →
      P ((memo.pushGroup t).pushMember memo.groups.size op c children inputs))
    (children : List GroupId) : Keeps P (add op c children inputs : Edit ν _) := by
  intro memo h
  rw [run_add]
  rcases memo.index.get? (.of op c (children.map memo.leader) inputs) with _ | m
  · dsimp only
    rcases memo.deriveRowType op (children.map memo.leader) inputs with e | t
    · exact h
    · exact hpush memo t _ h
  · exact h

/-- Adding a member to a group keeps what neither a new member nor a merge takes away. -/
theorem keeps_addTo_of_push (hpush : ∀ memo g children, P memo →
      P (memo.pushMember g op c children inputs))
    (hmerge : ∀ a b origin, Keeps P (merge a b origin : Edit ν Unit)) (g : GroupId)
    (children : List GroupId) (origin : String) :
    Keeps P (addTo g op c children inputs origin : Edit ν MemberId) := by
  refine keeps_get_bind fun memo h => ?_
  dsimp only
  split
  · split
    · exact (hmerge _ _ origin).bind (fun _ => keeps_pure _) memo h
    · exact h
  · rw [run_bind]
    rcases memo.deriveRowType op (children.map memo.leader) inputs with e | t
    · exact h
    · show P ((if _ then _ else _ : Edit ν _).run.run memo).2
      split
      · exact h
      · exact hpush memo _ _ h

end Keeps

end Memo

end QueryPlanner
