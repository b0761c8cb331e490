/-
# Calls

A memo is built by four calls: a logical member, or any member, is added in a group of its own, a
member is added to a group that exists, or two groups are merged. Between them, what is needed of a
group, its winners and its statistics are written, and rules are marked as applied. Whatever the
calls are and whether they succeed or not, they leave a settled memo in which merged groups are
empty; and one that fails leaves the memo as it found it.

* `Call` : the calls, with the groups that they name;
* `Built` : the memos that come of calls on groups which exist;
* `Built.wellFormed` : how such a memo is represented;
* `Built.atomic` : a call that fails changes nothing, and no rebuild fails;
* `Built.isMergeOf` : a merge is carried through to the smallest congruence.
-/
import QueryPlanner.Proofs.Memo.Merging

namespace QueryPlanner

namespace Memo

variable {ν : Type} {memo : Memo ν}

/-! ## Outcomes -/

/-- An error by which a memo refuses a call: the row types of two groups, or of a member and its
group, differ, or an operator has the wrong number of inputs. -/
def IsRefusal : OptimizationError ν → Prop
  | .rowTypeMismatch .. | .invalidExpression .. => True
  | _ => False

/-- An edit that is refused changes nothing, and one that is not leaves a settled memo. -/
def Orderly {α : Type} (memo : Memo ν) (x : Edit ν α) : Prop :=
  (∃ e, IsRefusal e ∧ x.run.run memo = (.error e, memo)) ∨
    ∃ a after, x.run.run memo = (.ok a, after) ∧ after.Settled ∧ (memo.Tidy → after.Tidy)

/-- What is done with the result of an edit has no part in what becomes of the memo. -/
theorem Orderly.andReturn {α β : Type} {x : Edit ν α} (h : memo.Orderly x) (f : α → β) :
    memo.Orderly (x >>= fun a => pure (f a)) := by
  rcases h with ⟨e, he, hrun⟩ | ⟨a, after, hrun, hafter⟩
  · exact Or.inl ⟨e, he, run_bind_of_error hrun _⟩
  · exact Or.inr ⟨f a, after, run_bind_of_ok hrun _, hafter⟩

/-- A row type that is derived is that of as many inputs as there are conventions for them; where
none is, the call is refused. -/
theorem deriveRowType_cases (memo : Memo ν) (op : Operator) (children : List GroupId)
    (inputs : List Convention) :
    (∃ mismatch, memo.deriveRowType op children inputs = .error (.invalidExpression mismatch)) ∨
    ∃ t, memo.deriveRowType op children inputs = .ok t ∧ inputs.length = children.length ∧
      op.deriveRowType (children.map fun g => (memo.group g).rowType) = .ok t := by
  unfold deriveRowType
  split
  · exact Or.inl ⟨_, rfl⟩
  · next hlength =>
      rcases op.deriveRowType (children.map fun g => (memo.group g).rowType) with mismatch | t
      · exact Or.inl ⟨mismatch, rfl⟩
      · exact Or.inr ⟨t, rfl, not_not.mp hlength, rfl⟩

section Add

variable {op : Operator} {c : Convention} {children : List GroupId} {inputs : List Convention}

/-- The leaders of groups that exist stand for themselves. -/
theorem Led.parents_map_leader (hled : memo.Led) (hlt : ∀ g ∈ children, g < memo.groups.size) :
    ∀ g ∈ children.map memo.leader, memo.parents[g]? = some g := by
  intro g hg
  obtain ⟨child, hchild, rfl⟩ := List.mem_map.mp hg
  exact hled.parents_leader (hlt child hchild)

theorem Settled.add (h : memo.Settled) (hlt : ∀ g ∈ children, g < memo.groups.size) :
    memo.Orderly (add op c children inputs) := by
  have hlive := h.led.parents_map_leader hlt
  unfold Orderly
  rw [run_add]
  rcases hindex : memo.index.get? (.of op c (children.map memo.leader) inputs) with _ | m
  · dsimp only
    rcases memo.deriveRowType_cases op (children.map memo.leader) inputs with
      ⟨mismatch, hderive⟩ | ⟨t, hderive, hlength, htype⟩
    · rw [hderive]
      exact Or.inl ⟨.invalidExpression mismatch, trivial, rfl⟩
    · rw [hderive]
      refine Or.inr ⟨_, _, rfl, ?_, fun htidy => ?_⟩
      · -- the new group stands for itself, and the inputs do as before
        have hgroups : ∀ g ∈ children.map memo.leader, g ≠ memo.groups.size := fun g hg =>
          Nat.ne_of_lt (h.led.parents_eq_some_iff_lt.mp ⟨g, hlive g hg⟩)
        refine settled_pushMember (settled_pushGroup h t) ?_ ?_ hlength ?_ hindex
        · show (memo.parents.push _)[memo.groups.size]? = _
          rw [← h.led.size, Array.getElem?_push, if_pos rfl]
        · intro g hg
          show (memo.parents.push _)[g]? = _
          rw [Array.getElem?_push, h.led.size, if_neg (hgroups g hg), hlive g hg]
        · rw [group_pushGroup_self h.led]
          refine Eq.trans ?_ htype
          exact congrArg op.deriveRowType (List.map_congr_left fun g hg => by
            rw [group_pushGroup h.led t g (hgroups g hg)])
      · exact (htidy.pushGroup h.led t).modifyGroup (led_pushGroup h.led t) _ _
  · exact Or.inr ⟨_, memo, rfl, h, id⟩

theorem Settled.addLogical (h : memo.Settled) (hlt : ∀ g ∈ children, g < memo.groups.size) :
    memo.Orderly (addLogical op children) :=
  (h.add hlt).andReturn Prod.fst

theorem Settled.addTo (h : memo.Settled) {g : GroupId} (hg : g < memo.groups.size)
    (hlt : ∀ g ∈ children, g < memo.groups.size) (origin : String) :
    memo.Orderly (addTo g op c children inputs origin) := by
  have hlive := h.led.parents_map_leader hlt
  unfold Orderly
  rw [run_addTo]
  rcases hindex : memo.index.get? (.of op c (children.map memo.leader) inputs) with _ | m
  · dsimp only
    rcases memo.deriveRowType_cases op (children.map memo.leader) inputs with
      ⟨mismatch, hderive⟩ | ⟨t, hderive, hlength, htype⟩
    · rw [hderive]
      exact Or.inl ⟨.invalidExpression mismatch, trivial, rfl⟩
    · rw [hderive]
      dsimp only
      split
      · exact Or.inl ⟨.rowTypeMismatch .., trivial, rfl⟩
      · next hsame =>
          refine Or.inr ⟨_, _, rfl, ?_, fun htidy => htidy.modifyGroup h.led _ _⟩
          refine settled_pushMember h (h.led.parents_leader hg) hlive hlength ?_ hindex
          rw [htype, not_not.mp hsame]
  · dsimp only
    split
    · obtain ⟨hm, -⟩ := h.knows _ _ hindex
      have howner := (h.member m hm).1.group_lt h.led
      rcases h.merge_cases howner (h.led.leader_lt hg) origin with
        ⟨expected, actual, hrun⟩ | ⟨after, hrun, hmerged, hafter, -⟩
      · rw [hrun]
        exact Or.inl ⟨.rowTypeMismatch .., trivial, rfl⟩
      · rw [hrun]
        exact Or.inr ⟨_, after, rfl, hafter, hmerged.tidy⟩
    · exact Or.inr ⟨_, memo, rfl, h, id⟩

end Add

theorem Settled.merge (h : memo.Settled) {a b : GroupId} (ha : a < memo.groups.size)
    (hb : b < memo.groups.size) (origin : String) : memo.Orderly (merge a b origin) := by
  rcases h.merge_cases ha hb origin with ⟨expected, actual, hrun⟩ | ⟨after, hrun, hmerged, hafter, -⟩
  · exact Or.inl ⟨.rowTypeMismatch .., trivial, hrun⟩
  · exact Or.inr ⟨(), after, hrun, hafter, hmerged.tidy⟩

/-! ## Calls -/

/-- A call that adds a member to a memo or merges two groups of it. -/
inductive Call where
  | addLogical (op : Operator) (children : List GroupId)
  | add (op : Operator) (convention : Convention) (children : List GroupId)
      (inputs : List Convention)
  | addTo (g : GroupId) (op : Operator) (convention : Convention) (children : List GroupId)
      (inputs : List Convention) (origin : String)
  | merge (a b : GroupId) (origin : String)

/-- The groups that a call names. -/
def Call.groups : Call → List GroupId
  | addLogical _ children => children
  | add _ _ children _ => children
  | addTo g _ _ children _ _ => g :: children
  | merge a b _ => [a, b]

/-- What a call does, without what it returns. -/
def Call.run : Call → Edit ν Unit
  | addLogical op children => do let _ ← Memo.addLogical op children
  | add op convention children inputs => do let _ ← Memo.add op convention children inputs
  | addTo g op convention children inputs origin => do
      let _ ← Memo.addTo g op convention children inputs origin
  | merge a b origin => Memo.merge a b origin

/-- Writes what is needed of the group that stands for `g`, its winners and its statistics. -/
def annotate (memo : Memo ν) (g : GroupId) (required : List Convention)
    (winners : Dictionary Convention (Winner ν)) (statistics : Option (Statistics ν)) : Memo ν :=
  memo.modifyGroup g fun x =>
    { x with required := required, winners := winners, statistics := statistics }

/-- The memos that come of calls on groups which exist, whether these succeed or fail, and of what
is written on groups and members between them. -/
inductive Built : Memo ν → Prop
  | empty : Built empty
  | call {memo : Memo ν} (h : Built memo) (c : Call) (hc : ∀ g ∈ c.groups, g < memo.groups.size) :
      Built (c.run.run.run memo).2
  | annotate {memo : Memo ν} (h : Built memo) (g : GroupId) (required : List Convention)
      (winners : Dictionary Convention (Winner ν)) (statistics : Option (Statistics ν)) :
      Built (memo.annotate g required winners statistics)
  | markApplied {memo : Memo ν} (h : Built memo) (m : MemberId) (hash : UInt64) :
      Built (memo.markApplied m hash)

/-- A call on groups that exist changes nothing if it fails, and leaves a settled memo if it does
not. -/
theorem Settled.call (h : memo.Settled) (c : Call) (hc : ∀ g ∈ c.groups, g < memo.groups.size) :
    memo.Orderly c.run := by
  cases c with
  | addLogical op children => exact (h.addLogical hc).andReturn fun _ => ()
  | add op convention children inputs => exact (h.add hc).andReturn fun _ => ()
  | addTo g op convention children inputs origin =>
      obtain ⟨hg, hchildren⟩ := List.forall_mem_cons.mp hc
      exact (h.addTo hg hchildren origin).andReturn fun _ => ()
  | merge a b origin =>
      obtain ⟨ha, hb⟩ := List.forall_mem_cons.mp hc
      exact h.merge ha (hb b List.mem_cons_self) origin

/-- What is written on a group changes neither its row type nor its members. -/
theorem Settled.annotate (h : memo.Settled) (g : GroupId) (required : List Convention)
    (winners : Dictionary Convention (Winner ν)) (statistics : Option (Statistics ν)) :
    (memo.annotate g required winners statistics).Settled := by
  have hsame : SameUpTo (fun x => { x with required := [], winners := [], statistics := none })
      (memo.annotate g required winners statistics) memo := sameUpTo_modifyGroup g fun _ => rfl
  exact h.of_sameUpTo hsame fun _ => ⟨rfl, rfl⟩

/-- A memo that is built by calls is settled, and merged groups of it are empty. -/
theorem Built.settled (h : memo.Built) : memo.Settled ∧ memo.Tidy := by
  induction h with
  | empty => exact ⟨settled_empty, tidy_empty⟩
  | @call memo _ c hc ih =>
      obtain ⟨hsettled, htidy⟩ := ih
      rcases hsettled.call c hc with ⟨e, -, hrun⟩ | ⟨_, after, hrun, hafter, htidy'⟩
      · rw [hrun]
        exact ⟨hsettled, htidy⟩
      · rw [hrun]
        exact ⟨hafter, htidy' htidy⟩
  | annotate _ g required winners statistics ih =>
      exact ⟨ih.1.annotate g required winners statistics, ih.2.modifyGroup ih.1.led g _⟩
  | markApplied _ m hash ih => exact ⟨ih.1.markApplied m hash, ih.2⟩

/-- Two tables of one column, an empty relation without columns, and the first row of each table. -/
def firstRows : Memo Float :=
  let t : RowType := ⟨[⟨"a", .int64, true⟩]⟩
  let calls : List Call := [.addLogical (.scan ⟨"s", "t"⟩ t) [], .addLogical (.scan ⟨"s", "u"⟩ t) [],
    .addLogical (.values ⟨[]⟩ []) [], .addLogical (.limit 0 1) [0], .addLogical (.limit 0 1) [1]]
  calls.foldl (fun memo c => (c.run.run.run memo).2) .empty

theorem built_firstRows : firstRows.Built := by
  refine (((((Built.empty.call _ ?_).call _ ?_).call _ ?_).call _ ?_).call _ ?_)
  all_goals decide +kernel

/-! ## The representation -/

/-- How a memo represents its groups and members. -/
structure WellFormed (memo : Memo ν) : Prop where
  /-- Every group has a pointer. -/
  size_parents : memo.parents.size = memo.groups.size
  /-- No pointer leads to a larger number. -/
  parent_le : ∀ g p : GroupId, memo.parents[g]? = some p → p ≤ g
  /-- Following the pointers from a group comes to an end, at a live group. -/
  climb_live : ∀ g < memo.groups.size, ∃ root, memo.isLive root ∧
    ∀ fuel ≥ g, climb memo.parents fuel g = root
  /-- The group of a member is live. -/
  group_live : ∀ m < memo.members.size, memo.isLive (memo.member m).group
  /-- A member is listed once, by its group. -/
  listed : ∀ (g : GroupId) (x : Group ν), memo.groups[g]? = some x → ∀ m < memo.members.size,
    x.members.count m = if g = (memo.member m).group then 1 else 0
  /-- Nothing but members is listed. -/
  listed_lt : ∀ (g : GroupId) (x : Group ν), memo.groups[g]? = some x →
    ∀ m ∈ x.members, m < memo.members.size
  /-- A group that is not live is empty. -/
  dead : ∀ (g : GroupId) (x : Group ν), memo.groups[g]? = some x → memo.isLive g = false →
    x.members = [] ∧ x.required = [] ∧ x.winners = []
  /-- What a member reads is live. -/
  children_live : ∀ m < memo.members.size, ∀ g ∈ (memo.member m).children, memo.isLive g
  /-- A member reads as many groups as its operator takes inputs. -/
  arity : ∀ m < memo.members.size, (memo.member m).children.length = (memo.member m).op.arity ∧
    (memo.member m).inputs.length = (memo.member m).op.arity
  /-- Every member of a live group derives the row type of the group. -/
  rowType : ∀ g, memo.isLive g → ∀ m ∈ (memo.group g).members,
    (memo.member m).op.deriveRowType
      ((memo.member m).children.map fun child => (memo.group child).rowType) =
      .ok (memo.group g).rowType

theorem isLive_iff {g : GroupId} : memo.isLive g = true ↔ memo.parents[g]? = some g := beq_iff_eq

/-- Calls on groups that exist, whether they succeed or fail, leave a memo well formed. -/
theorem Built.wellFormed (h : memo.Built) : memo.WellFormed := by
  obtain ⟨hsettled, htidy⟩ := h.settled
  have hled := hsettled.led
  constructor
  · exact hled.size
  · exact hled.le
  · intro g hg
    exact ⟨memo.leader g, isLive_iff.mpr (hled.parents_leader hg), fun fuel hfuel =>
      climb_of_le hled.le hfuel⟩
  · intro m hm
    exact isLive_iff.mpr (hsettled.member m hm).1.group_live
  · intro g x hx m hm
    rw [hsettled.listed g x hx m]
    simp only [hm, true_and, eq_comm]
  · intro g x hx m hm
    have hcount := List.count_pos_iff.mpr hm
    rw [hsettled.listed g x hx m] at hcount
    split at hcount
    · next hand => exact hand.1
    · exact absurd hcount (Nat.lt_irrefl 0)
  · intro g x hx hdead
    have hne : memo.parents[g]? ≠ some g := fun hlive => by
      rw [isLive_iff.mpr hlive] at hdead
      cases hdead
    obtain ⟨hrequired, hwinners, -⟩ := htidy g x hx hne
    refine ⟨List.eq_nil_iff_forall_not_mem.mpr fun m hm => ?_, hrequired, hwinners⟩
    have hcount := List.count_pos_iff.mpr hm
    rw [hsettled.listed g x hx m] at hcount
    split at hcount
    · next hand => exact hne (hand.2 ▸ (hsettled.member m hand.1).1.group_live)
    · exact Nat.lt_irrefl 0 hcount
  · intro m hm g hg
    exact isLive_iff.mpr (hsettled.children_live m hm g hg)
  · intro m hm
    have hfits := (hsettled.member m hm).1
    exact ⟨hfits.length_children, hfits.length_inputs.trans hfits.length_children⟩
  · intro g hg m hm
    obtain ⟨-, hlt, hgroup⟩ := hsettled.mem_group_iff.mp hm
    have htype := (hsettled.member m hlt).1.rowType
    rwa [hgroup, leader_of_self (isLive_iff.mp hg)] at htype

/-- In the example, merging the two tables merges their first rows. -/
theorem Built.wellFormed_firstRows : ∃ memo : Memo Float, memo.Built ∧
    memo.parents = #[0, 0, 2, 3, 3] ∧ memo.WellFormed := by
  have hbuilt : Built ((Call.merge 0 1 "").run.run.run firstRows).2 :=
    built_firstRows.call (.merge 0 1 "") (by decide +kernel)
  exact ⟨_, hbuilt, by decide +kernel, hbuilt.wellFormed⟩

/-! ## Failures -/

/-- A call on groups that exist leaves the memo as it found it if it fails, which it only does by
refusing; and once the union of two groups succeeded, the rebuild that follows does. -/
theorem Built.atomic (h : memo.Built) :
    (∀ c : Call, (∀ g ∈ c.groups, g < memo.groups.size) → ∀ e after,
      c.run.run.run memo = (.error e, after) → after = memo ∧ IsRefusal e) ∧
    ∀ a b : GroupId, a < memo.groups.size → b < memo.groups.size → ∀ origin between,
      (union a b origin).run.run memo = (.ok (), between) →
      ∀ rounds, ∃ after, (rebuild origin rounds).run.run between = (.ok (), after) := by
  obtain ⟨hsettled, -⟩ := h.settled
  constructor
  · intro c hc e after hrun
    rcases hsettled.call c hc with ⟨e', he, hrun'⟩ | ⟨_, _, hrun', -⟩
    · rw [hrun'] at hrun
      cases hrun
      exact ⟨rfl, he⟩
    · rw [hrun'] at hrun
      cases hrun
  · intro a b ha hb origin between hrun rounds
    rcases hsettled.union_cases ha hb origin with ⟨_, _, hrun'⟩ | ⟨_, hrun', hmerged, -⟩
    · rw [hrun'] at hrun
      cases hrun
    · rw [hrun'] at hrun
      cases hrun
      exact hmerged.rebuild_ok origin rounds

/-- In the example, a table cannot be merged with the relation without columns. -/
theorem Built.atomic_firstRows : ∃ e after,
    (Call.merge 0 2 "").run.run.run firstRows = (.error e, after) ∧ after = firstRows := by
  rcases hrun : (Call.merge 0 2 "").run.run.run firstRows with ⟨e | ⟨⟩, after⟩
  · exact ⟨e, after, rfl, (built_firstRows.atomic.1 _ (by decide +kernel) e after hrun).1⟩
  · have hfails : ((Call.merge 0 2 "").run.run.run firstRows).1.toOption.isNone := by
      decide +kernel
    rw [hrun] at hfails
    cases hfails

/-! ## Merges -/

/-- A merge that succeeds, also one that a duplicate in another group brings about, is carried
through to the smallest congruence. -/
theorem Built.isMergeOf (h : memo.Built) :
    (∀ a b : GroupId, a < memo.groups.size → b < memo.groups.size → ∀ origin after,
      (Memo.merge a b origin).run.run memo = (.ok (), after) → IsMergeOf origin memo a b after) ∧
    ∀ g op c children inputs origin m after, g < memo.groups.size →
      (∀ child ∈ children, child < memo.groups.size) →
      memo.index.get? (.of op c (children.map memo.leader) inputs) = some m →
      (memo.member m).group ≠ memo.leader g →
      ∀ m', (Memo.addTo g op c children inputs origin).run.run memo = (.ok m', after) →
        m' = m ∧ IsMergeOf origin memo (memo.member m).group (memo.leader g) after := by
  obtain ⟨hsettled, -⟩ := h.settled
  have hmerge : ∀ a b : GroupId, a < memo.groups.size → b < memo.groups.size → ∀ origin after,
      (Memo.merge a b origin).run.run memo = (.ok (), after) → IsMergeOf origin memo a b after := by
    intro a b ha hb origin after hrun
    rcases hsettled.merge_cases ha hb origin with ⟨_, _, hrun'⟩ | ⟨_, hrun', -, -, hmergeOf⟩
    · rw [hrun'] at hrun
      cases hrun
    · rw [hrun'] at hrun
      cases hrun
      exact hmergeOf
  refine ⟨hmerge, ?_⟩
  intro g op c children inputs origin m after hg hchildren hindex hother m' hrun
  obtain ⟨hm, -⟩ := hsettled.knows _ _ hindex
  have howner := (hsettled.member m hm).1.group_lt hsettled.led
  rw [run_addTo, hindex] at hrun
  dsimp only at hrun
  rw [if_pos hother] at hrun
  split at hrun
  · next hmerged =>
      cases hrun
      exact ⟨rfl, hmerge _ _ howner (hsettled.led.leader_lt hg) origin _ hmerged⟩
  · cases hrun

/-- In the example, the two tables are merged, and then their first rows, whether this is asked for
or comes of adding one table to the group of the other one. -/
theorem Built.isMergeOf_firstRows :
    (∃ after, (Memo.merge 0 1 "").run.run firstRows = (.ok (), after) ∧
      IsMergeOf "" firstRows 0 1 after ∧ after.leader 4 = after.leader 3) ∧
    ∃ after, (Memo.addTo 1 (firstRows.member 0).op .logical [] [] "").run.run firstRows =
      (.ok 0, after) ∧ IsMergeOf "" firstRows 0 1 after := by
  constructor
  · rcases hrun : (Memo.merge 0 1 "").run.run firstRows with ⟨e | ⟨⟩, after⟩
    · have hok : ((Memo.merge 0 1 "").run.run firstRows).1.toOption.isSome := by decide +kernel
      rw [hrun] at hok
      cases hok
    · have hleader : ((Memo.merge 0 1 "").run.run firstRows).2.leader 4 =
          ((Memo.merge 0 1 "").run.run firstRows).2.leader 3 := by decide +kernel
      rw [hrun] at hleader
      exact ⟨after, rfl, built_firstRows.isMergeOf.1 0 1 (by decide +kernel) (by decide +kernel)
        "" after hrun, hleader⟩
  · rcases hrun : (Memo.addTo 1 (firstRows.member 0).op .logical [] [] "").run.run firstRows with
      ⟨e | m, after⟩
    · have hok : ((Memo.addTo 1 (firstRows.member 0).op .logical [] [] "").run.run
          firstRows).1.toOption.isSome := by decide +kernel
      rw [hrun] at hok
      cases hok
    · have hread : (firstRows.member 0).group = 0 ∧ firstRows.leader 1 = 1 := by decide +kernel
      obtain ⟨rfl, hmerge⟩ := built_firstRows.isMergeOf.2 1 _ _ [] [] "" 0 after
        (by decide +kernel) (by simp) (by decide +kernel) (by decide +kernel) m hrun
      rw [hread.1, hread.2] at hmerge
      exact ⟨after, rfl, hmerge⟩

end Memo

end QueryPlanner
