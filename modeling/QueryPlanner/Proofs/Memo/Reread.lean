/-
# Memos without their notes

Edits of a memo read no number: neither statistics nor winners make a difference to which members there
are, which groups, and which of them are merged. So an edit does the same to a memo without its notes,
whatever numbers the notes would be in.

* `reread` : a memo without its notes;
* `group_reread`, `membersOf_reread` : everything else is read off it as before;
* `mirrors_addLogical`, `mirrors_addTo` : edits do the same to it.
-/
import QueryPlanner.Proofs.Memo.Consistency

namespace QueryPlanner

variable {ν μ : Type}

/-- A group without its notes. -/
def Group.reread (g : Group ν) : Group μ := ⟨g.id, g.members, g.rowType, g.required, [], none⟩

theorem Group.require_reread (g : Group ν) (c : Convention) :
    (g.reread : Group μ).require c = (g.require c).reread := by
  unfold Group.require
  rw [show (g.reread : Group μ).required = g.required from rfl]
  split
  · rfl
  · rfl

theorem Group.absorbing_reread (g gone : Group ν) :
    Group.absorbing (gone.reread : Group μ) g.reread = (Group.absorbing gone g).reread := by
  have hrequire : ∀ (required : List Convention) (x : Group ν),
      required.foldl Group.require (x.reread : Group μ) = (required.foldl Group.require x).reread := by
    intro required x
    induction required generalizing x with
    | nil => rfl
    | cons c rest ih =>
        rw [List.foldl_cons, List.foldl_cons, Group.require_reread]
        exact ih _
  exact hrequire gone.required { g with
    members := g.members ++ gone.members
    winners := []
    statistics := g.statistics.or gone.statistics }

namespace Memo

variable {memo : Memo ν} {g : GroupId} {op : Operator} {c : Convention} {children : List GroupId}
  {inputs : List Convention}

/-- A memo without its notes, to be searched in any numbers. -/
def reread (memo : Memo ν) : Memo μ where
  groups := memo.groups.map Group.reread
  members := memo.members
  parents := memo.parents
  index := memo.index
  merges := memo.merges

theorem reread_empty : (empty : Memo ν).reread = (empty : Memo μ) := by
  have hgroups : (#[] : Array (Group ν)).map Group.reread = (#[] : Array (Group μ)) := Array.map_empty
  exact congrArg (fun groups => { (empty : Memo μ) with groups := groups }) hgroups

/-! ## Reading -/

theorem leader_reread (g : GroupId) : (memo.reread : Memo μ).leader g = memo.leader g := rfl

theorem member_reread (m : MemberId) : (memo.reread : Memo μ).member m = memo.member m := rfl

theorem size_groups_reread : (memo.reread : Memo μ).groups.size = memo.groups.size := Array.size_map ..

theorem getElem?_groups_reread (i : Nat) :
    (memo.reread : Memo μ).groups[i]? = memo.groups[i]?.map Group.reread := Array.getElem?_map ..

theorem group_reread (g : GroupId) : (memo.reread : Memo μ).group g = (memo.group g).reread := by
  unfold group
  rw [getElem?_groups_reread, leader_reread]
  rcases memo.groups[memo.leader g]? with _ | group
  · rfl
  · rfl

theorem rowType_reread (g : GroupId) :
    ((memo.reread : Memo μ).group g).rowType = (memo.group g).rowType := by
  rw [group_reread]
  rfl

theorem members_reread (g : GroupId) :
    ((memo.reread : Memo μ).group g).members = (memo.group g).members := by
  rw [group_reread]
  rfl

theorem membersOf_reread (g : GroupId) : (memo.reread : Memo μ).membersOf g = memo.membersOf g := by
  unfold membersOf
  rw [members_reread]
  rfl

theorem liveGroups_reread : (memo.reread : Memo μ).liveGroups = memo.liveGroups := by
  unfold liveGroups
  rw [size_groups_reread]
  rfl

theorem toOption_deriveRowType_reread (op : Operator) (children : List GroupId)
    (inputs : List Convention) :
    ((memo.reread : Memo μ).deriveRowType op children inputs).toOption =
      (memo.deriveRowType op children inputs).toOption := by
  unfold deriveRowType
  simp only [rowType_reread]
  split
  · rfl
  · rcases op.deriveRowType (children.map fun g => (memo.group g).rowType) with e | t
    · rfl
    · rfl

/-- Memos that differ in nothing but notes are the same without them. -/
theorem SameUpTo.reread_eq {a b : Memo ν} (h : SameUpTo Group.bare a b) :
    (a.reread : Memo μ) = b.reread := by
  have hforget : ∀ x : Option (Group ν), x.map (Group.reread : Group ν → Group μ) =
      (x.map Group.bare).map Group.reread := by
    intro x
    rw [Option.map_map]
    rfl
  have hgroups : a.groups.map (Group.reread : Group ν → Group μ) = b.groups.map Group.reread := by
    refine Array.ext_getElem? fun i => ?_
    rw [Array.getElem?_map, Array.getElem?_map, hforget, h.groups, ← hforget]
  unfold reread
  rw [hgroups, h.members, h.parents, h.index, h.merges]

/-- It differs in nothing but notes from what it was. -/
theorem sameUpTo_reread (memo : Memo ν) : SameUpTo Group.bare memo.reread memo where
  groups i := by
    rw [getElem?_groups_reread, Option.map_map]
    rfl
  members := rfl
  parents := rfl
  index := rfl
  merges := rfl

theorem Tidy.reread (h : memo.Tidy) : (memo.reread : Memo ν).Tidy := by
  intro g x hx hdead
  rw [getElem?_groups_reread] at hx
  obtain ⟨old, hold, rfl⟩ := Option.map_eq_some_iff.mp hx
  obtain ⟨hrequired, -, -⟩ := h g old hold hdead
  exact ⟨hrequired, rfl, rfl⟩

/-! ## Elementary changes -/

/-- Changes of a group that agree on what is not noted do so on memos. -/
theorem modifyGroup_reread (g : GroupId) {f : Group ν → Group ν} {k : Group μ → Group μ}
    (h : ∀ x : Group ν, k x.reread = (f x).reread) :
    (memo.reread : Memo μ).modifyGroup g k = (memo.modifyGroup g f).reread := by
  have hgroups : ((memo.reread : Memo μ).modifyGroup g k).groups =
      ((memo.modifyGroup g f).reread : Memo μ).groups := by
    refine Array.ext_getElem? fun i => ?_
    unfold modifyGroup
    rw [getElem?_groups_reread, leader_reread, Array.getElem?_modify, Array.getElem?_modify]
    split
    · rw [getElem?_groups_reread, Option.map_map, Option.map_map]
      exact congrArg (memo.groups[i]?.map ·) (funext h)
    · exact getElem?_groups_reread i
  exact congrArg (fun groups => { (memo.reread : Memo μ) with groups := groups }) hgroups

theorem pushGroup_reread (t : RowType) :
    (memo.reread : Memo μ).pushGroup t = (memo.pushGroup t).reread := by
  have hgroups : ((memo.pushGroup t).reread : Memo μ).groups =
      (memo.reread : Memo μ).groups.push ⟨memo.groups.size, [], t, [], [], none⟩ := Array.map_push
  unfold pushGroup
  rw [size_groups_reread]
  exact congrArg (fun groups => { (memo.reread : Memo μ) with
    groups := groups
    parents := memo.parents.push memo.groups.size }) hgroups.symm

theorem pushMember_reread (g : GroupId) :
    (memo.reread : Memo μ).pushMember g op c children inputs =
      (memo.pushMember g op c children inputs).reread := by
  have hmodified : (memo.reread : Memo μ).modifyGroup g (fun x => { x with
        members := x.members ++ [memo.members.size] }) =
      (memo.modifyGroup g fun x => { x with members := x.members ++ [memo.members.size] }).reread :=
    modifyGroup_reread g fun _ => rfl
  exact congrArg (fun between : Memo μ => { between with
    members := memo.members.push ⟨memo.members.size, g, op, c, children, inputs, []⟩
    index := memo.index.insert (.of op c children inputs) memo.members.size }) hmodified

theorem require_reread (g : GroupId) (c : Convention) :
    (memo.reread : Memo μ).require g c = (memo.require g c).reread :=
  modifyGroup_reread g fun x => x.require_reread c

theorem foldl_require_reread (inputs : List (GroupId × Convention)) :
    inputs.foldl (fun memo input => memo.require input.1 input.2) (memo.reread : Memo μ) =
      (inputs.foldl (fun memo input => memo.require input.1 input.2) memo).reread := by
  induction inputs generalizing memo with
  | nil => rfl
  | cons input rest ih =>
      rw [List.foldl_cons, List.foldl_cons, require_reread]
      exact ih

theorem absorb_reread (root victim : GroupId) :
    (memo.reread : Memo μ).absorb root victim = (memo.absorb root victim).reread := by
  have hgone : (memo.reread : Memo μ).group victim = (memo.group victim).reread := group_reread victim
  have hemptied : (memo.reread : Memo μ).modifyGroup victim Group.emptied =
      (memo.modifyGroup victim Group.emptied).reread := modifyGroup_reread victim fun _ => rfl
  have habsorbing : ((memo.modifyGroup victim Group.emptied).reread : Memo μ).modifyGroup root
        (Group.absorbing (memo.group victim).reread) =
      ((memo.modifyGroup victim Group.emptied).modifyGroup root
        (Group.absorbing (memo.group victim))).reread :=
    modifyGroup_reread root fun x => x.absorbing_reread (memo.group victim)
  rw [← hemptied, ← hgone] at habsorbing
  exact congrArg (fun between : Memo μ => { between with
    parents := memo.parents.setIfInBounds victim root
    members := memo.members.map fun m : Member => if m.group = victim then { m with group := root } else m
    merges := memo.merges + 1 }) habsorbing

theorem enter_reread (memo : Memo ν) (ms : List Member) (index : MemberIndex) :
    (memo.reread : Memo μ).enter ms index = memo.enter ms index := by
  induction ms generalizing index with
  | nil => rfl
  | cons m rest ih =>
      unfold enter
      split
      · exact ih _
      · rw [ih, member_reread]

theorem conflict_reread : (memo.reread : Memo μ).conflict = memo.conflict :=
  congrArg Prod.snd (enter_reread memo.readLeaders _ _)

theorem reindexed_reread : (memo.reread : Memo μ).reindexed = memo.reindexed.reread :=
  congrArg (fun index => { (memo.readLeaders.reread : Memo μ) with index := index })
    (congrArg Prod.fst (enter_reread memo.readLeaders _ _))

/-! ## Operations -/

theorem mirrors_union (a b : GroupId) (origin : String) :
    Mirrors reread (union a b origin : Edit ν Unit) (union a b origin : Edit μ Unit) memo := by
  unfold union
  refine mirrors_get_bind ?_
  simp only [leader_reread, rowType_reread]
  split
  · exact mirrors_pure ()
  · split
    · exact Mirrors.bind (mirrors_throw _ _) fun _ _ _ => mirrors_set (absorb_reread _ _)
    · exact mirrors_set (absorb_reread _ _)

theorem mirrors_rebuild (origin : String) (fuel : Nat) (memo : Memo ν) :
    Mirrors reread (rebuild origin fuel : Edit ν Unit) (rebuild origin fuel : Edit μ Unit) memo := by
  induction fuel generalizing memo with
  | zero => exact mirrors_pure ()
  | succ fuel ih =>
      have hunion : ∀ a b, Mirrors reread (do union a b origin; rebuild origin fuel : Edit ν Unit)
          (do union a b origin; rebuild origin fuel : Edit μ Unit) memo.reindexed := fun a b =>
        (mirrors_union a b origin).bind fun _ after _ => ih after
      constructor
      · rw [run_rebuild, run_rebuild, conflict_reread, reindexed_reread]
        rcases memo.conflict with _ | ⟨a, b⟩
        · rfl
        · exact (hunion a b).value
      · rw [run_rebuild, run_rebuild, conflict_reread, reindexed_reread]
        rcases memo.conflict with _ | ⟨a, b⟩
        · rfl
        · exact (hunion a b).state

theorem mirrors_merge (a b : GroupId) (origin : String) :
    Mirrors reread (merge a b origin : Edit ν Unit) (merge a b origin : Edit μ Unit) memo := by
  refine (mirrors_union a b origin).bind fun _ after _ => mirrors_get_bind ?_
  rw [size_groups_reread]
  exact mirrors_rebuild origin _ after

theorem mirrors_add (op : Operator) (c : Convention) (children : List GroupId)
    (inputs : List Convention) : Mirrors reread (add op c children inputs : Edit ν _)
      (add op c children inputs : Edit μ _) memo := by
  refine mirrors_get_bind ?_
  dsimp only
  rw [show (memo.reread : Memo μ).leader = memo.leader from rfl,
    show (memo.reread : Memo μ).index = memo.index from rfl]
  split
  · exact mirrors_pure _
  · refine (mirrors_lift (toOption_deriveRowType_reread ..)).bind fun t after hreturns => ?_
    obtain ⟨-, rfl⟩ := returns_lift.mp hreturns
    rw [size_groups_reread, pushGroup_reread, pushMember_reread]
    exact (mirrors_set rfl).bind fun _ _ _ => mirrors_pure _

theorem mirrors_addLogical (op : Operator) (children : List GroupId) :
    Mirrors reread (addLogical op children : Edit ν _) (addLogical op children : Edit μ _) memo :=
  (mirrors_add op .logical children _).bind fun _ _ _ => mirrors_pure _

theorem mirrors_addTo (g : GroupId) (op : Operator) (c : Convention) (children : List GroupId)
    (inputs : List Convention) (origin : String) :
    Mirrors reread (addTo g op c children inputs origin : Edit ν _)
      (addTo g op c children inputs origin : Edit μ _) memo := by
  refine mirrors_get_bind ?_
  dsimp only
  rw [show (memo.reread : Memo μ).leader = memo.leader from rfl,
    show (memo.reread : Memo μ).index = memo.index from rfl]
  split
  · rw [member_reread]
    split
    · exact (mirrors_merge _ _ origin).bind fun _ _ _ => mirrors_pure _
    · exact mirrors_pure _
  · refine (mirrors_lift (toOption_deriveRowType_reread ..)).bind fun t after hreturns => ?_
    obtain ⟨-, rfl⟩ := returns_lift.mp hreturns
    rw [rowType_reread, pushMember_reread]
    split
    · exact (mirrors_throw _ _).bind fun _ _ _ => (mirrors_set rfl).bind fun _ _ _ => mirrors_pure _
    · exact (mirrors_set rfl).bind fun _ _ _ => mirrors_pure _

end Memo

end QueryPlanner
