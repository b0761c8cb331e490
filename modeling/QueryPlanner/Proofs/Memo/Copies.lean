/-
# Copies of members

A member that is proposed a second time is not added again, so additions never make a copy of a
member. A merge can: it makes groups the same that two members of its own read, and a rebuild only
looks for equal members of different groups. Copies come of nothing else, and they are in one group.

* `OneCopy` : no two members of live groups are the same;
* `Call.merges?` : the groups that a call makes one, and `Forces` : what this forces to be the same;
* `Settled.call_cases` : a call fails, adds a new key or nothing at all, or merges;
* `oneCopy_afterCalls_iff` : which calls leave one copy of each member.
-/
import QueryPlanner.Proofs.Memo.Calls

namespace QueryPlanner

namespace Memo

variable {ν : Type} {memo after : Memo ν}

/-! ## One copy -/

/-- No two members of live groups agree in operator, up to literals that are alike, in convention,
inputs and the conventions required of them. -/
def OneCopy (memo : Memo ν) : Prop :=
  ∀ g g', memo.isLive g → memo.isLive g' → ∀ m ∈ (memo.group g).members,
    ∀ m' ∈ (memo.group g').members, (memo.member m).key = (memo.member m').key → m = m'

/-- Every member is one of a live group. -/
theorem Consistent.oneCopy_iff (h : memo.Consistent) :
    memo.OneCopy ↔ ∀ m < memo.members.size, ∀ m' < memo.members.size,
      (memo.member m).key = (memo.member m').key → m = m' := by
  constructor
  · intro hone m hm m' hm' hkey
    have hlisted : ∀ i < memo.members.size, i ∈ (memo.group (memo.member i).group).members := by
      intro i hi
      have hfits := (h.member i hi).1
      exact h.mem_group_iff.mpr ⟨hfits.group_lt h.led, hi, (leader_of_self hfits.group_live).symm⟩
    have hlive : ∀ i < memo.members.size, memo.isLive (memo.member i).group := fun i hi =>
      isLive_iff.mpr (h.member i hi).1.group_live
    exact hone _ _ (hlive m hm) (hlive m' hm') m (hlisted m hm) m' (hlisted m' hm') hkey
  · intro hone g g' _ _ m hm m' hm' hkey
    exact hone m (h.lt_of_mem_group hm) m' (h.lt_of_mem_group hm') hkey

theorem oneCopy_empty : (empty : Memo ν).OneCopy :=
  consistent_empty.oneCopy_iff.mpr fun m hm => absurd hm (Nat.not_lt_zero m)

/-! ## Additions -/

/-- One memo has the members of another one and a new one, whose key no other member has. -/
structure Adjoins (memo after : Memo ν) : Prop where
  size : after.members.size = memo.members.size + 1
  member : ∀ m < memo.members.size, after.member m = memo.member m
  new : ∀ m < memo.members.size, (memo.member m).key ≠ (after.member memo.members.size).key

/-- A member under a new key is no copy. -/
theorem Adjoins.oneCopy_iff (h : memo.Adjoins after) (hmemo : memo.Consistent)
    (hafter : after.Consistent) : after.OneCopy ↔ memo.OneCopy := by
  rw [hafter.oneCopy_iff, hmemo.oneCopy_iff, h.size]
  constructor
  · intro hone m hm m' hm' hkey
    rw [← h.member m hm, ← h.member m' hm'] at hkey
    exact hone m (Nat.lt_succ_of_lt hm) m' (Nat.lt_succ_of_lt hm') hkey
  · intro hone m hm m' hm' hkey
    rcases Nat.lt_succ_iff_lt_or_eq.mp hm with hm | rfl
    · rw [h.member m hm] at hkey
      rcases Nat.lt_succ_iff_lt_or_eq.mp hm' with hm' | rfl
      · rw [h.member m' hm'] at hkey
        exact hone m hm m' hm' hkey
      · exact absurd hkey (h.new m hm)
    · rcases Nat.lt_succ_iff_lt_or_eq.mp hm' with hm' | rfl
      · rw [h.member m' hm'] at hkey
        exact absurd hkey.symm (h.new m' hm')
      · rfl

section Add

variable {op : Operator} {c : Convention} {children : List GroupId} {inputs : List Convention}

/-- Every key of a member is one that the index has. -/
theorem Settled.key_ne_of_index (h : memo.Settled)
    (hnew : memo.index.get? (.of op c children inputs) = none) {m : MemberId}
    (hm : m < memo.members.size) : (memo.member m).key ≠ .of op c children inputs := by
  intro hkey
  obtain ⟨first, hfirst, -⟩ := h.indexed m hm
  rw [hkey, hnew] at hfirst
  cases hfirst

theorem Settled.adjoins_pushMember (h : memo.Settled) (g : GroupId)
    (hnew : memo.index.get? (.of op c children inputs) = none) :
    memo.Adjoins (memo.pushMember g op c children inputs) where
  size := Array.size_push ..
  member m hm := by rw [member_pushMember, if_neg (Nat.ne_of_lt hm)]
  new m hm := by
    rw [member_pushMember, if_pos rfl]
    exact h.key_ne_of_index hnew hm

end Add

/-! ## Merges -/

/-- Two groups have to be the same once `a` and `b` are: the smallest congruence that holds `a` and
`b` relates them. -/
def Forces (memo : Memo ν) (a b x y : GroupId) : Prop := ∀ r, memo.IsCongruence a b r → r x y

/-- Two members agree in operator, convention and required conventions, and read groups that are
related one by one. -/
structure Coincide (memo : Memo ν) (r : GroupId → GroupId → Prop) (m m' : MemberId) : Prop where
  op : (memo.member m).op.canonical = (memo.member m').op.canonical
  convention : (memo.member m).convention = (memo.member m').convention
  inputs : (memo.member m).inputs = (memo.member m').inputs
  children : List.Forall₂ r (memo.member m).children (memo.member m').children

section Merge

variable {origin : String} {a b : GroupId}

/-- After a merge, groups have the same leader exactly if they had to be the same. -/
theorem IsMergeOf.leader_eq_iff (h : IsMergeOf origin memo a b after) (x y : GroupId) :
    after.leader x = after.leader y ↔ memo.Forces a b x y :=
  ⟨fun hxy _ hr => h.isLeast.2 hr x y hxy, fun hxy => hxy _ h.isLeast.1⟩

/-- After a merge, members are the same exactly if they agree and the groups that they read had to
be the same. -/
theorem IsMergeOf.key_eq_iff (h : IsMergeOf origin memo a b after) {m m' : MemberId}
    (hm : m < memo.members.size) (hm' : m' < memo.members.size) :
    (after.member m).key = (after.member m').key ↔ memo.Coincide (memo.Forces a b) m m' := by
  obtain ⟨_, hread, hchildren⟩ := h.member m hm
  obtain ⟨_, hread', hchildren'⟩ := h.member m' hm'
  have hforces : (fun x y => after.leader x = after.leader y) = memo.Forces a b :=
    funext fun x => funext fun y => propext (h.leader_eq_iff x y)
  rw [h.key m (h.size_members ▸ hm), h.key m' (h.size_members ▸ hm')]
  unfold canonicalKey MemberKey.of
  rw [MemberKey.mk.injEq, hread, hread']
  dsimp only
  rw [hchildren, hchildren', map_leader_eq_iff, hforces]
  exact ⟨fun ⟨hinputs, hconv, hins, hop⟩ => ⟨hop, hconv, hins, hinputs⟩,
    fun ⟨hop, hconv, hins, hinputs⟩ => ⟨hinputs, hconv, hins, hop⟩⟩

/-- A merge leaves one copy of each member if there was one, and none of them coincide. -/
theorem IsMergeOf.oneCopy_iff (h : IsMergeOf origin memo a b after) (hafter : after.Consistent) :
    after.OneCopy ↔ ∀ m < memo.members.size, ∀ m' < memo.members.size,
      memo.Coincide (memo.Forces a b) m m' → m = m' := by
  rw [hafter.oneCopy_iff, h.size_members]
  constructor
  · intro hone m hm m' hm' hsame
    exact hone m hm m' hm' ((h.key_eq_iff hm hm').mpr hsame)
  · intro hone m hm m' hm' hkey
    exact hone m hm m' hm' ((h.key_eq_iff hm hm').mp hkey)

end Merge

/-- Members of the same key coincide under whatever relates every group to itself. -/
theorem coincide_of_key {r : GroupId → GroupId → Prop} (hr : ∀ x, r x x) {m m' : MemberId}
    (hkey : (memo.member m).key = (memo.member m').key) : memo.Coincide r m m' := by
  obtain ⟨hchildren, hconv, hins, hop⟩ := (key_eq_iff _ _).mp hkey
  exact ⟨hop, hconv, hins, hchildren ▸ List.forall₂_same.mpr fun x _ => hr x⟩

/-! ## Calls -/

/-- The two groups that a call makes one if it succeeds: those that it is asked to merge, or that of
the member it proposes and another one which this is proposed for. -/
def Call.merges? (memo : Memo ν) : Call → Option (GroupId × GroupId)
  | merge a b _ => some (a, b)
  | addTo g op c children inputs _ =>
      match memo.index.get? (.of op c (children.map memo.leader) inputs) with
      | some m =>
          if (memo.member m).group ≠ memo.leader g then some ((memo.member m).group, memo.leader g)
          else none
      | none => none
  | addLogical .. => none
  | add .. => none

/-- What becomes of a memo by a call that is going to merge some groups, or none: it fails, or
leaves the members as they are, or with one under a new key, or merges those groups. -/
inductive Effect (memo : Memo ν) :
    Option (GroupId × GroupId) → Except (OptimizationError ν) Unit × Memo ν → Prop
  | fails (groups : Option (GroupId × GroupId)) (e : OptimizationError ν) :
      Effect memo groups (.error e, memo)
  | nothing : Effect memo none (.ok (), memo)
  | adds {after : Memo ν} (h : memo.Adjoins after) : Effect memo none (.ok (), after)
  | merges {a b : GroupId} {origin : String} {after : Memo ν}
      (h : IsMergeOf origin memo a b after) : Effect memo (some (a, b)) (.ok (), after)

section Effect

variable {op : Operator} {c : Convention} {children : List GroupId} {inputs : List Convention}

theorem Settled.effect_add (h : memo.Settled) :
    memo.Effect none ((Call.add op c children inputs).run.run.run memo) := by
  unfold Call.run
  rw [run_bind, run_add]
  rcases hindex : memo.index.get? (.of op c (children.map memo.leader) inputs) with _ | m
  · dsimp only
    rcases memo.deriveRowType op (children.map memo.leader) inputs with e | t
    · exact .fails none e
    · -- the new group has no part in which members there are
      have hnew :
          (memo.pushGroup t).index.get? (.of op c (children.map memo.leader) inputs) = none :=
        hindex
      obtain ⟨hsize, hmember, hkey⟩ :=
        (settled_pushGroup h t).adjoins_pushMember memo.groups.size hnew
      exact .adds ⟨hsize, hmember, hkey⟩
  · exact .nothing

/-- Adding a logical member is adding a member that reads logical ones. -/
theorem run_addLogical_eq (op : Operator) (children : List GroupId) (memo : Memo ν) :
    (Call.addLogical op children).run.run.run memo =
      (Call.add op .logical children (children.map fun _ => .logical)).run.run.run memo := by
  unfold Call.run Memo.addLogical
  rw [run_bind, run_bind, run_bind]
  rcases (Memo.add op .logical children (children.map fun _ => .logical)).run.run memo with
    ⟨_ | _, after⟩ <;> rfl

theorem Settled.effect_addTo (h : memo.Settled) {g : GroupId} (hg : g < memo.groups.size)
    (origin : String) :
    memo.Effect ((Call.addTo g op c children inputs origin).merges? memo)
      ((Call.addTo g op c children inputs origin).run.run.run memo) := by
  unfold Call.run
  rw [run_bind, run_addTo]
  rcases hindex : memo.index.get? (.of op c (children.map memo.leader) inputs) with _ | m
  · have hgroups : (Call.addTo g op c children inputs origin).merges? memo = none := by
      simp only [Call.merges?, hindex]
    rw [hgroups]
    dsimp only
    rcases memo.deriveRowType op (children.map memo.leader) inputs with e | t
    · exact .fails none e
    · by_cases htype : t = (memo.group (memo.leader g)).rowType
      · simp only [if_neg (not_not_intro htype)]
        exact .adds (h.adjoins_pushMember (memo.leader g) hindex)
      · simp only [ne_eq, htype, not_false_eq_true, if_true]
        exact .fails none _
  · have hgroups : (Call.addTo g op c children inputs origin).merges? memo =
        if (memo.member m).group ≠ memo.leader g then
          some ((memo.member m).group, memo.leader g) else none := by
      simp only [Call.merges?, hindex]
    rw [hgroups]
    dsimp only
    by_cases hsame : (memo.member m).group = memo.leader g
    · rw [if_neg (not_not_intro hsame), if_neg (not_not_intro hsame)]
      exact .nothing
    · rw [if_pos hsame, if_pos hsame]
      have howner := (h.member m (h.knows _ _ hindex).1).1.group_lt h.led
      rcases h.merge_cases howner (h.led.leader_lt hg) origin with
        ⟨expected, actual, hrun⟩ | ⟨after, hrun, -, -, hmerge⟩
      · rw [hrun]
        exact .fails _ _
      · rw [hrun]
        exact .merges hmerge

/-- Every call on groups that exist has one of these effects. -/
theorem Settled.effect (h : memo.Settled) (c : Call) (hc : ∀ g ∈ c.groups, g < memo.groups.size) :
    memo.Effect (c.merges? memo) (c.run.run.run memo) := by
  cases c with
  | addLogical op children =>
      rw [run_addLogical_eq]
      exact h.effect_add
  | add op convention children inputs => exact h.effect_add
  | addTo g op convention children inputs origin =>
      exact h.effect_addTo (hc g List.mem_cons_self) origin
  | merge a b origin =>
      obtain ⟨ha, hb⟩ := List.forall_mem_cons.mp hc
      unfold Call.run
      rcases h.merge_cases ha (hb b List.mem_cons_self) origin with
        ⟨expected, actual, hrun⟩ | ⟨after, hrun, -, -, hmerge⟩
      · rw [hrun]
        exact .fails _ _
      · rw [hrun]
        exact .merges hmerge

end Effect

/-- A call makes copies: it merges two groups, and members that read different groups before agree
and read the same ones then. -/
def Call.MakesCopies (memo : Memo ν) (c : Call) : Prop :=
  ∃ a b after, c.merges? memo = some (a, b) ∧ c.run.run.run memo = (.ok (), after) ∧
    ∃ m < memo.members.size, ∃ m' < memo.members.size,
      m ≠ m' ∧ memo.Coincide (memo.Forces a b) m m'

/-- A call leaves one copy of each member exactly if there was one and it makes no others. -/
theorem Built.oneCopy_call_iff (h : memo.Built) (c : Call)
    (hc : ∀ g ∈ c.groups, g < memo.groups.size) :
    (c.run.run.run memo).2.OneCopy ↔ memo.OneCopy ∧ ¬ c.MakesCopies memo := by
  have hsettled := h.settled.1
  have hafter := (h.call c hc).settled.1.toConsistent
  have heffect := hsettled.effect c hc
  rcases hrun : c.run.run.run memo with ⟨r, after⟩
  rcases hgroups : c.merges? memo with _ | ⟨a, b⟩
  · -- a call that merges nothing makes no copies
    have hnot : ¬ c.MakesCopies memo := by
      rintro ⟨a, b, after, hmerges, -⟩
      rw [hgroups] at hmerges
      cases hmerges
    rw [and_iff_left hnot]
    rw [hrun] at heffect hafter
    rw [hgroups] at heffect
    cases heffect with
    | fails => exact Iff.rfl
    | nothing => exact Iff.rfl
    | adds hadds => exact hadds.oneCopy_iff hsettled.toConsistent hafter
  · rw [hrun] at heffect hafter
    rw [hgroups] at heffect
    cases heffect with
    | fails _ e =>
        have hnot : ¬ c.MakesCopies memo := by
          rintro ⟨a, b, after, -, hok, -⟩
          rw [hrun] at hok
          cases hok
        exact (and_iff_left hnot).symm
    | merges hmerge =>
        rw [hmerge.oneCopy_iff hafter, hsettled.oneCopy_iff]
        constructor
        · intro hone
          refine ⟨fun m hm m' hm' hkey => hone m hm m' hm' ?_, ?_⟩
          · exact coincide_of_key (fun x r hr => hr.equivalence.refl x) hkey
          · rintro ⟨a', b', after', hgroups', -, m, hm, m', hm', hne, hsame⟩
            rw [hgroups] at hgroups'
            cases hgroups'
            exact hne (hone m hm m' hm' hsame)
        · rintro ⟨-, hnone⟩ m hm m' hm' hsame
          by_contra hne
          exact hnone ⟨a, b, after, hgroups, hrun, m, hm, m', hm', hne, hsame⟩

/-! ## Runs -/

/-- The memo after some calls, whether they succeed or fail. -/
def afterCalls (memo : Memo ν) : List Call → Memo ν
  | [] => memo
  | c :: rest => (c.run.run.run memo).2.afterCalls rest

/-- Every one of some calls names groups that exist when it is made. -/
def Allows (memo : Memo ν) : List Call → Prop
  | [] => True
  | c :: rest => (∀ g ∈ c.groups, g < memo.groups.size) ∧ (c.run.run.run memo).2.Allows rest

theorem Built.afterCalls (h : memo.Built) {calls : List Call} (hcalls : memo.Allows calls) :
    (memo.afterCalls calls).Built := by
  induction calls generalizing memo with
  | nil => exact h
  | cons c rest ih => exact ih (h.call c hcalls.1) hcalls.2

/-- Calls leave one copy of each member exactly if there was one and none of them makes others. -/
theorem Built.oneCopy_after_iff (h : memo.Built) {calls : List Call}
    (hcalls : memo.Allows calls) :
    (memo.afterCalls calls).OneCopy ↔ memo.OneCopy ∧ ∀ earlier c later,
      calls = earlier ++ c :: later → ¬ c.MakesCopies (memo.afterCalls earlier) := by
  induction calls generalizing memo with
  | nil => exact (and_iff_left fun earlier c later hnil => by simp at hnil).symm
  | cons c rest ih =>
      obtain ⟨hc, hrest⟩ := hcalls
      show ((c.run.run.run memo).2.afterCalls rest).OneCopy ↔ _
      rw [ih (h.call c hc) hrest, h.oneCopy_call_iff c hc, and_assoc]
      refine and_congr_right fun _ => ⟨?_, ?_⟩
      · rintro ⟨hfirst, hlater⟩ earlier d later hsplit
        rcases List.cons_eq_append_iff.mp hsplit with ⟨rfl, hcons⟩ | ⟨earlier', rfl, hrest'⟩
        · cases hcons
          exact hfirst
        · exact hlater earlier' d later hrest'
      · intro hall
        refine ⟨hall [] c rest rfl, fun earlier d later hsplit => ?_⟩
        exact hall (c :: earlier) d later (congrArg (List.cons c) hsplit)

/-- **Which calls leave one copy of each member.** On the empty memo, these are the calls none of
which merges groups so that members which read different groups agree and read the same ones then.
Members that are the same are in the same group in any case. -/
theorem oneCopy_afterCalls_iff {calls : List Call} (h : (empty : Memo ν).Allows calls) :
    (((empty : Memo ν).afterCalls calls).OneCopy ↔ ∀ earlier c later,
      calls = earlier ++ c :: later → ¬ c.MakesCopies ((empty : Memo ν).afterCalls earlier)) ∧
    ∀ m < ((empty : Memo ν).afterCalls calls).members.size,
      ∀ m' < ((empty : Memo ν).afterCalls calls).members.size,
        (((empty : Memo ν).afterCalls calls).member m).key =
            (((empty : Memo ν).afterCalls calls).member m').key →
          (((empty : Memo ν).afterCalls calls).member m).group =
            (((empty : Memo ν).afterCalls calls).member m').group := by
  constructor
  · rw [Built.empty.oneCopy_after_iff h]
    exact and_iff_right oneCopy_empty
  · intro m hm m' hm' hkey
    exact (Built.empty.afterCalls h).settled.1.group_eq_of_key hm hm' hkey

/-- Two tables of one column and the first row of each, before the tables are merged. -/
def mergedTables : List Call :=
  let t : RowType := ⟨[⟨"a", .int64, true⟩]⟩
  [.addLogical (.scan ⟨"s", "t"⟩ t) [], .addLogical (.scan ⟨"s", "u"⟩ t) [],
    .addLogical (.limit 0 1) [0], .addLogical (.limit 0 1) [1], .merge 0 1 ""]

theorem allows_mergedTables : (empty : Memo Float).Allows mergedTables := by
  refine ⟨?_, ?_, ?_, ?_, ?_, trivial⟩
  all_goals decide +kernel

theorem oneCopy_afterCalls_iff_mergedTables : (empty : Memo Float).Allows mergedTables ∧
    (((empty : Memo Float).afterCalls mergedTables).OneCopy ↔ ∀ earlier c later,
      mergedTables = earlier ++ c :: later →
        ¬ c.MakesCopies ((empty : Memo Float).afterCalls earlier)) :=
  ⟨allows_mergedTables, (oneCopy_afterCalls_iff allows_mergedTables).1⟩

/-- Merging the tables leaves two copies of the first row, in the one group that is left of
theirs. -/
theorem not_oneCopy_mergedTables : (empty : Memo Float).Allows mergedTables ∧
    ¬ ((empty : Memo Float).afterCalls mergedTables).OneCopy := by
  refine ⟨allows_mergedTables, fun hone => ?_⟩
  have hsame : (2 : MemberId) = 3 :=
    hone 2 2 (by decide +kernel) (by decide +kernel) 2 (by decide +kernel) 3 (by decide +kernel)
      (by decide +kernel)
  cases hsame

end Memo

end QueryPlanner
