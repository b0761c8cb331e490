/-
# Leaders

A merge lets the pointer of the larger group lead to the smaller one, so that pointers never
lead to larger numbers, and whoever follows them arrives at a group that stands for itself. Every
operation of the memo keeps this, whether it succeeds or fails, so it holds of every memo that a
search can come to.

* `Led` : every group has a pointer, and none leads to a larger number;
* `Led.leader_of_parent` : the group that stands for a group stands for its parent;
* `run_union`, `run_rebuild` : what a union and a round of a rebuild do;
* `keeps_led_add`, `keeps_led_addTo` : adding members, with all the merges this brings, keeps it;
* `Led.mem_liveGroups` : the live groups are those that point to themselves.
-/
import QueryPlanner.Memo.Insertion
import QueryPlanner.Proofs.Running

namespace QueryPlanner

namespace Memo

variable {ν : Type} {memo : Memo ν}

/-- Every group has a pointer, and none leads to a larger number. -/
structure Led (memo : Memo ν) : Prop where
  size : memo.parents.size = memo.groups.size
  le : ∀ g p : GroupId, memo.parents[g]? = some p → p ≤ g

/-! ## Reading leaders -/

/-- A group that points to itself stands for itself. -/
theorem leader_of_self {g : GroupId} (h : memo.parents[g]? = some g) : memo.leader g = g :=
  climb_of_self h g

/-- A group that does not exist stands for itself. -/
theorem leader_of_none {g : GroupId} (h : memo.parents[g]? = none) : memo.leader g = g :=
  climb_of_none h g

/-- Where no pointer leads to a larger number, more steps than the number of a group change
nothing. -/
theorem climb_of_le {parents : Array GroupId} (hle : ∀ g p : GroupId, parents[g]? = some p → p ≤ g)
    {g fuel : Nat} (h : g ≤ fuel) : climb parents fuel g = climb parents g g := by
  induction g using Nat.strongRecOn generalizing fuel with
  | ind g ih =>
      rcases hp : parents[g]? with _ | p
      · rw [climb_of_none hp, climb_of_none hp]
      by_cases hpg : p = g
      · rw [hpg] at hp
        rw [climb_of_self hp, climb_of_self hp]
      · have hlt : p < g := Nat.lt_of_le_of_ne (hle g p hp) hpg
        -- both ways take the same first step, and have enough left for the rest
        have hstep : ∀ n, g ≤ n → climb parents n g = climb parents p p := by
          intro n hn
          obtain ⟨k, rfl⟩ := Nat.exists_eq_add_one_of_ne_zero
            (Nat.ne_zero_of_lt (Nat.lt_of_lt_of_le hlt hn))
          rw [climb, hp]
          dsimp only
          rw [if_neg hpg]
          exact ih p hlt (Nat.le_of_lt_succ (Nat.lt_of_lt_of_le hlt hn))
        rw [hstep fuel h, hstep g (Nat.le_refl g)]

/-- The group that stands for a group stands for its parent. -/
theorem Led.leader_of_parent (h : memo.Led) {g p : GroupId} (hp : memo.parents[g]? = some p) :
    memo.leader g = memo.leader p := by
  by_cases hpg : p = g
  · rw [hpg]
  · have hlt : p < g := Nat.lt_of_le_of_ne (h.le g p hp) hpg
    obtain ⟨k, rfl⟩ := Nat.exists_eq_add_one_of_ne_zero (Nat.ne_zero_of_lt hlt)
    unfold leader
    rw [climb, hp]
    dsimp only
    rw [if_neg hpg]
    exact climb_of_le h.le (Nat.le_of_lt_succ hlt)

/-- The group that stands for a group has no larger number. -/
theorem Led.leader_le (h : memo.Led) (g : GroupId) : memo.leader g ≤ g := by
  induction g using Nat.strongRecOn with
  | ind g ih =>
      rcases hp : memo.parents[g]? with _ | p
      · exact Nat.le_of_eq (leader_of_none hp)
      · rw [h.leader_of_parent hp]
        rcases Nat.lt_or_eq_of_le (h.le g p hp) with hlt | rfl
        · exact Nat.le_of_lt (Nat.lt_of_le_of_lt (ih p hlt) hlt)
        · exact Nat.le_of_eq (leader_of_self hp)

theorem Led.parents_eq_some_iff_lt (h : memo.Led) {g : GroupId} :
    (∃ p, memo.parents[g]? = some p) ↔ g < memo.groups.size := by
  rw [← h.size]
  constructor
  · rintro ⟨p, hp⟩
    exact (Array.getElem?_eq_some_iff.mp hp).1
  · intro hg
    exact ⟨memo.parents[g], Array.getElem?_eq_getElem hg⟩

/-- The leader of a group that exists exists and points to itself. -/
theorem Led.parents_leader (h : memo.Led) {g : GroupId} (hg : g < memo.groups.size) :
    memo.parents[memo.leader g]? = some (memo.leader g) := by
  induction g using Nat.strongRecOn with
  | ind g ih =>
      obtain ⟨p, hp⟩ := h.parents_eq_some_iff_lt.mpr hg
      by_cases hpg : p = g
      · rw [hpg] at hp
        rw [leader_of_self hp, hp]
      · have hlt : p < g := Nat.lt_of_le_of_ne (h.le g p hp) hpg
        rw [h.leader_of_parent hp]
        exact ih p hlt (Nat.lt_trans hlt hg)

/-- The leader of a leader is that leader. -/
theorem Led.leader_leader (h : memo.Led) (g : GroupId) :
    memo.leader (memo.leader g) = memo.leader g := by
  rcases Nat.lt_or_ge g memo.groups.size with hg | hg
  · exact leader_of_self (h.parents_leader hg)
  · have hn : memo.parents[g]? = none := Array.getElem?_eq_none (h.size ▸ hg)
    rw [leader_of_none hn, leader_of_none hn]

theorem Led.leader_lt (h : memo.Led) {g : GroupId} (hg : g < memo.groups.size) :
    memo.leader g < memo.groups.size :=
  h.parents_eq_some_iff_lt.mp ⟨_, h.parents_leader hg⟩

/-- The leader of a group that does not exist does not exist either. -/
theorem Led.le_leader (h : memo.Led) {g : GroupId} (hg : memo.groups.size ≤ g) :
    memo.groups.size ≤ memo.leader g := by
  rw [leader_of_none (Array.getElem?_eq_none (h.size ▸ hg))]
  exact hg

/-- The live groups are those that point to themselves. -/
theorem Led.mem_liveGroups (h : memo.Led) {g : GroupId} :
    g ∈ memo.liveGroups ↔ memo.parents[g]? = some g := by
  unfold liveGroups isLive
  rw [List.mem_filter, List.mem_range, beq_iff_eq]
  constructor
  · rintro ⟨-, hl⟩
    exact hl
  · intro hl
    exact ⟨h.parents_eq_some_iff_lt.mp ⟨g, hl⟩, hl⟩

theorem Led.leader_of_mem_liveGroups (h : memo.Led) {g : GroupId} (hg : g ∈ memo.liveGroups) :
    memo.leader g = g :=
  leader_of_self (h.mem_liveGroups.mp hg)

/-- The leader of a group that exists is live. -/
theorem Led.leader_mem_liveGroups (h : memo.Led) {g : GroupId} (hg : g < memo.groups.size) :
    memo.leader g ∈ memo.liveGroups :=
  h.mem_liveGroups.mpr (h.parents_leader hg)

/-! ## Changes of one group or member -/

theorem led_empty : (empty : Memo ν).Led where
  size := rfl
  le g p h := by simp [empty] at h

/-- Whatever leaves the pointers and the number of groups alone keeps them in order. -/
theorem Led.of_eq {other : Memo ν} (h : memo.Led) (hp : other.parents = memo.parents)
    (hg : other.groups.size = memo.groups.size) : other.Led where
  size := by rw [hp, hg, h.size]
  le g p h' := by
    rw [hp] at h'
    exact h.le g p h'

theorem led_modifyGroup (h : memo.Led) (g : GroupId) (f : Group ν → Group ν) :
    (memo.modifyGroup g f).Led :=
  h.of_eq rfl (Array.size_modify ..)

theorem led_require (h : memo.Led) (g : GroupId) (c : Convention) : (memo.require g c).Led :=
  led_modifyGroup h g _

theorem led_markApplied (h : memo.Led) (m : MemberId) (hash : UInt64) :
    (memo.markApplied m hash).Led :=
  h.of_eq rfl rfl

theorem led_pushGroup (h : memo.Led) (t : RowType) : (memo.pushGroup t).Led where
  size := by
    show (memo.parents.push _).size = (memo.groups.push _).size
    rw [Array.size_push, Array.size_push, h.size]
  le g p hp := by
    change (memo.parents.push _)[g]? = some p at hp
    rw [Array.getElem?_push, h.size] at hp
    -- the new group points to itself; the pointers of the old ones are what they were
    split at hp
    · next heq =>
        cases hp
        exact Nat.le_of_eq heq.symm
    · exact h.le g p hp

theorem led_pushMember (h : memo.Led) (g : GroupId) (op : Operator) (c : Convention)
    (children : List GroupId) (inputs : List Convention) :
    (memo.pushMember g op c children inputs).Led :=
  (led_modifyGroup h g _).of_eq rfl rfl

/-! ## Merges -/

/-- A group may point to one of a smaller number. -/
theorem led_absorb (h : memo.Led) {root victim : GroupId} (hle : root ≤ victim) :
    (memo.absorb root victim).Led where
  size := by
    unfold absorb modifyGroup
    rw [Array.size_setIfInBounds, Array.size_modify, Array.size_modify, h.size]
  le g p hp := by
    change (memo.parents.setIfInBounds victim root)[g]? = some p at hp
    rw [Array.getElem?_setIfInBounds] at hp
    split at hp
    · next heq =>
        rw [← heq]
        split at hp
        · cases hp
          exact hle
        · cases hp
    · exact h.le g p hp

theorem led_readLeaders (h : memo.Led) : memo.readLeaders.Led :=
  h.of_eq rfl rfl

/-- What a merge of two groups does: nothing if they are the same already or differ in
their row types, else the larger number is absorbed by the smaller one. -/
theorem run_union (a b : GroupId) (origin : String) (memo : Memo ν) :
    (union a b origin).run.run memo =
      let (a, b) := (memo.leader a, memo.leader b)
      let (root, victim) := (Nat.min a b, Nat.max a b)
      let (expected, actual) := ((memo.group root).rowType, (memo.group victim).rowType)
      if a = b then (.ok (), memo)
      else if expected ≠ actual then (.error (.rowTypeMismatch origin expected actual), memo)
      else (.ok (), memo.absorb root victim) := by
  unfold union
  rw [run_bind_of_ok (show (get : Edit ν (Memo ν)).run.run memo = (.ok memo, memo) from rfl)]
  by_cases hab : memo.leader a = memo.leader b
  · simp only [if_pos hab]
    rfl
  · simp only [if_neg hab]
    split <;> rfl

theorem keeps_led_union (a b : GroupId) (origin : String) :
    Keeps Led (union a b origin : Edit ν Unit) := by
  intro memo h
  rw [run_union]
  dsimp only
  split
  · exact h
  · split
    · exact h
    · exact led_absorb h (Nat.le_trans (Nat.min_le_left _ _) (Nat.le_max_left _ _))

/-- The memo with the index of its members, as far as no two groups are found to be the same. -/
def reindexed (memo : Memo ν) : Memo ν :=
  { memo.readLeaders with index := (memo.readLeaders.enter memo.readLeaders.members.toList {}).1 }

/-- The first two groups that a rebuild finds to have a member in common. -/
def conflict (memo : Memo ν) : Option (GroupId × GroupId) :=
  (memo.readLeaders.enter memo.readLeaders.members.toList {}).2

/-- One round of a rebuild makes the index anew, and goes on only if two groups are the same. -/
theorem run_rebuild (origin : String) (fuel : Nat) (memo : Memo ν) :
    (rebuild origin (fuel + 1)).run.run memo =
      match memo.conflict with
      | none => (.ok (), memo.reindexed)
      | some (a, b) => (do union a b origin; rebuild origin fuel).run.run memo.reindexed := by
  rw [rebuild]
  rw [run_bind_of_ok (show (get : Edit ν (Memo ν)).run.run memo = (.ok memo, memo) from rfl)]
  unfold conflict reindexed
  dsimp only
  rw [run_bind_of_ok (show (set _ : Edit ν PUnit).run.run memo = (.ok ⟨⟩, _) from rfl)]
  rcases (memo.readLeaders.enter memo.readLeaders.members.toList {}).2 with _ | ⟨a, b⟩
  · rfl
  · rfl

/-- A rebuild keeps what neither a new index nor the union of two groups that it finds to be the
same takes away. -/
theorem keeps_rebuild {P : Memo ν → Prop} {origin : String}
    (hreindexed : ∀ memo, P memo → P memo.reindexed)
    (hunion : ∀ memo a b, P memo → memo.conflict = some (a, b) →
      P ((union a b origin).run.run memo.reindexed).2) (fuel : Nat) :
    Keeps P (rebuild origin fuel : Edit ν Unit) := by
  induction fuel with
  | zero => exact keeps_pure ()
  | succ fuel ih =>
      intro memo h
      rw [run_rebuild]
      rcases hc : memo.conflict with _ | ⟨a, b⟩
      · exact hreindexed memo h
      · have hafter := hunion memo a b h hc
        dsimp only
        rw [run_bind]
        rcases hu : (union a b origin).run.run memo.reindexed with ⟨e | ⟨⟩, after⟩
        · rwa [hu] at hafter
        · rw [hu] at hafter
          exact ih after hafter

theorem keeps_led_rebuild (origin : String) (fuel : Nat) :
    Keeps Led (rebuild origin fuel : Edit ν Unit) :=
  keeps_rebuild (fun _ h => h.of_eq rfl rfl)
    (fun _ a b h _ => keeps_led_union a b origin _ (h.of_eq rfl rfl)) fuel

theorem keeps_led_merge (a b : GroupId) (origin : String) :
    Keeps Led (merge a b origin : Edit ν Unit) :=
  (keeps_led_union a b origin).bind fun _ =>
    keeps_get.bind fun memo => keeps_led_rebuild origin (memo.groups.size + 1)

/-! ## Adding members -/

theorem keeps_led_add (op : Operator) (c : Convention) (children : List GroupId)
    (inputs : List Convention) : Keeps Led (add op c children inputs : Edit ν _) := by
  refine keeps_get_bind fun memo h => ?_
  dsimp only
  split
  · exact h
  · rw [run_bind]
    rcases memo.deriveRowType op (children.map memo.leader) inputs with e | t
    · exact h
    · exact led_pushMember (led_pushGroup h t) _ _ _ _ _

theorem keeps_led_addTo (g : GroupId) (op : Operator) (c : Convention) (children : List GroupId)
    (inputs : List Convention) (origin : String) :
    Keeps Led (addTo g op c children inputs origin : Edit ν _) := by
  refine keeps_get_bind fun memo h => ?_
  dsimp only
  split
  · split
    · exact (keeps_led_merge _ _ origin).bind (fun _ => keeps_pure _) _ h
    · exact h
  · rw [run_bind]
    rcases memo.deriveRowType op (children.map memo.leader) inputs with e | t
    · exact h
    · show ((if _ then _ else _ : Edit ν _).run.run memo).2.Led
      split
      · exact h
      · exact led_pushMember h _ _ _ _ _

/-! ## How many groups there are -/

theorem size_absorb (memo : Memo ν) (root victim : GroupId) :
    (memo.absorb root victim).groups.size = memo.groups.size := by
  unfold absorb modifyGroup
  rw [Array.size_modify, Array.size_modify]

/-- Merged groups are still counted. -/
theorem keeps_size_union (n : Nat) (a b : GroupId) (origin : String) :
    Keeps (fun memo => memo.groups.size = n) (union a b origin : Edit ν Unit) := by
  intro memo h
  rw [run_union]
  dsimp only
  split
  · exact h
  · split
    · exact h
    · exact (size_absorb ..).trans h

theorem keeps_size_rebuild (n : Nat) (origin : String) (fuel : Nat) :
    Keeps (fun memo => memo.groups.size = n) (rebuild origin fuel : Edit ν Unit) :=
  keeps_rebuild (fun _ h => h) (fun memo a b h _ => keeps_size_union n a b origin memo.reindexed h)
    fuel

theorem keeps_size_merge (n : Nat) (a b : GroupId) (origin : String) :
    Keeps (fun memo => memo.groups.size = n) (merge a b origin : Edit ν Unit) :=
  (keeps_size_union n a b origin).bind fun _ =>
    keeps_get.bind fun memo => keeps_size_rebuild n origin (memo.groups.size + 1)

/-- A member added to a group makes no new one. -/
theorem keeps_size_addTo (n : Nat) (g : GroupId) (op : Operator) (c : Convention)
    (children : List GroupId) (inputs : List Convention) (origin : String) :
    Keeps (fun memo => memo.groups.size = n)
      (addTo g op c children inputs origin : Edit ν MemberId) := by
  refine keeps_get_bind fun memo h => ?_
  dsimp only
  split
  · split
    · exact (keeps_size_merge n _ _ origin).bind (fun _ => keeps_pure _) memo h
    · exact h
  · rw [run_bind]
    rcases memo.deriveRowType op (children.map memo.leader) inputs with e | t
    · exact h
    · show ((if _ then _ else _ : Edit ν _).run.run memo).2.groups.size = n
      split
      · exact h
      · exact (Array.size_modify ..).trans h

/-! ## How many members there are -/

/-- No member goes in a merge. -/
theorem keeps_count_merge (n : Nat) (a b : GroupId) (origin : String) :
    Keeps (fun memo => n ≤ memo.members.size) (merge a b origin : Edit ν Unit) := by
  have hunion : ∀ a b, Keeps (fun memo : Memo ν => n ≤ memo.members.size) (union a b origin) := by
    intro a b memo h
    rw [run_union]
    dsimp only
    split
    · exact h
    · split
      · exact h
      · exact Nat.le_trans h (Nat.le_of_eq (Array.size_map ..).symm)
  have hreindexed : ∀ memo : Memo ν, n ≤ memo.members.size → n ≤ memo.reindexed.members.size :=
    fun memo h => Nat.le_trans h (Nat.le_of_eq (Array.size_map ..).symm)
  exact (hunion a b).bind fun _ => keeps_get.bind fun memo =>
    keeps_rebuild hreindexed (fun memo a b h _ => hunion a b _ (hreindexed memo h)) _

theorem keeps_count_add (n : Nat) (op : Operator) (c : Convention) (children : List GroupId)
    (inputs : List Convention) :
    Keeps (fun memo => n ≤ memo.members.size) (add op c children inputs : Edit ν _) := by
  refine keeps_get_bind fun memo h => ?_
  dsimp only
  split
  · exact h
  · rw [run_bind]
    rcases memo.deriveRowType op (children.map memo.leader) inputs with e | t
    · exact h
    · exact Nat.le_trans h (Nat.le_trans (Nat.le_succ _) (Nat.le_of_eq (Array.size_push ..).symm))

theorem keeps_count_addTo (n : Nat) (g : GroupId) (op : Operator) (c : Convention)
    (children : List GroupId) (inputs : List Convention) (origin : String) :
    Keeps (fun memo => n ≤ memo.members.size)
      (addTo g op c children inputs origin : Edit ν MemberId) := by
  refine keeps_get_bind fun memo h => ?_
  dsimp only
  split
  · split
    · exact (keeps_count_merge n _ _ origin).bind (fun _ => keeps_pure _) memo h
    · exact h
  · rw [run_bind]
    rcases memo.deriveRowType op (children.map memo.leader) inputs with e | t
    · exact h
    · show n ≤ ((if _ then _ else _ : Edit ν _).run.run memo).2.members.size
      split
      · exact h
      · exact Nat.le_trans h (Nat.le_trans (Nat.le_succ _) (Nat.le_of_eq (Array.size_push ..).symm))

end Memo

end QueryPlanner
