/-
# Inserting what rules propose

When a rule was fired for a member, everything that it proposed is in the memo, in the group of
the member, and nothing is new but what it proposed. A proposal that is in a memo stays there
whatever the memo grows to.

* `Source.IsIn`, `Proposal.IsIn` : what is proposed is in a memo;
* `Proposal.Admits` : what a new member may be when a proposal was inserted;
* `returns_materialize`, `returns_insert` : what inserting leaves;
* `returns_fire` : what firing a rule leaves.
-/
import QueryPlanner.Proofs.Memo.Progress
import QueryPlanner.Proofs.Proposal
import QueryPlanner.Proofs.Search.Steps
import QueryPlanner.Search.Expansion

namespace QueryPlanner

open Memo

variable {ν : Type}

/-! ## Proposals that are in a memo -/

mutual

/-- A proposed input is in a memo, as a group of it. -/
def Source.IsIn (memo : Memo ν) : Source → GroupId → Prop
  | .group x, g => memo.leader x = memo.leader g
  | .fresh op children, g =>
      ∃ gs, AreIn memo children gs ∧ memo.Has g op .logical gs (gs.map fun _ => .logical)

/-- Proposed inputs are in a memo, as groups of it. -/
def Source.AreIn (memo : Memo ν) : List Source → List GroupId → Prop
  | [], gs => gs = []
  | s :: rest, gs => ∃ g gs', gs = g :: gs' ∧ s.IsIn memo g ∧ AreIn memo rest gs'

end

/-- What is proposed for a group is in it, and what it needs of its inputs is required of them. A
converter that would convert nothing is nowhere. -/
def Proposal.IsIn (memo : Memo ν) (g : GroupId) : Proposal → Prop
  | .substitution op children =>
      memo.Has g op .logical children (children.map fun _ => .logical)
  | .compound op children =>
      ∃ gs, Source.AreIn memo children gs ∧ memo.Has g op .logical gs (gs.map fun _ => .logical)
  | .physical op c inputs =>
      op = .converter c ∨ memo.Has g op c (inputs.map Prod.fst) (inputs.map Prod.snd) ∧
        ∀ slot ∈ inputs, slot.2 ∈ (memo.group slot.1).required

section Growth

variable {before after : Memo ν}

mutual

theorem Source.isIn_of_growsTo (h : before.GrowsTo after) (hbefore : before.Settled) :
    ∀ (s : Source) (g : GroupId), s.IsIn before g → s.IsIn after g
  | .group x, g, hs => by
      unfold Source.IsIn at hs ⊢
      exact h.coarser x g hs
  | .fresh op children, g, hs => by
      unfold Source.IsIn at hs ⊢
      obtain ⟨gs, hgs, hhas⟩ := hs
      exact ⟨gs, Source.areIn_of_growsTo h hbefore children gs hgs, h.has hbefore hhas⟩

theorem Source.areIn_of_growsTo (h : before.GrowsTo after) (hbefore : before.Settled) :
    ∀ (ss : List Source) (gs : List GroupId), Source.AreIn before ss gs → Source.AreIn after ss gs
  | [], gs, hss => by
      unfold Source.AreIn at hss ⊢
      exact hss
  | s :: rest, gs, hss => by
      unfold Source.AreIn at hss ⊢
      obtain ⟨g, gs', rfl, hs, hrest⟩ := hss
      exact ⟨g, gs', rfl, Source.isIn_of_growsTo h hbefore s g hs,
        Source.areIn_of_growsTo h hbefore rest gs' hrest⟩

end

/-- What is in a memo stays there. -/
theorem Proposal.isIn_of_growsTo (h : before.GrowsTo after) (hbefore : before.Settled)
    {p : Proposal} {g : GroupId} (hp : p.IsIn before g) : p.IsIn after g := by
  cases p with
  | substitution op children => exact h.has hbefore hp
  | compound op children =>
      obtain ⟨gs, hgs, hhas⟩ := hp
      exact ⟨gs, Source.areIn_of_growsTo h hbefore children gs hgs, h.has hbefore hhas⟩
  | physical op c inputs =>
      rcases hp with hconverter | ⟨hhas, hrequired⟩
      · exact Or.inl hconverter
      · exact Or.inr ⟨h.has hbefore hhas, fun slot hslot =>
          h.required slot.1 slot.2 (hrequired slot hslot)⟩

/-- It is in all groups that have the same leader. -/
theorem Proposal.IsIn.congr {memo : Memo ν} {p : Proposal} {g other : GroupId}
    (hp : p.IsIn memo g) (hl : memo.leader g = memo.leader other) : p.IsIn memo other := by
  cases p with
  | substitution op children => exact Has.congr hp hl
  | compound op children =>
      obtain ⟨gs, hgs, hhas⟩ := hp
      exact ⟨gs, hgs, hhas.congr hl⟩
  | physical op c inputs => exact hp.imp_right fun hin => ⟨hin.1.congr hl, hin.2⟩

end Growth

/-! ## New members -/

mutual

/-- The operators that a proposed input may add, each with the inputs it is proposed over. -/
def Source.parts : Source → List (Operator × List Source)
  | .group _ => []
  | .fresh op children => (op, children) :: partsOfList children

/-- The operators that proposed inputs may add. -/
def Source.partsOfList : List Source → List (Operator × List Source)
  | [] => []
  | s :: rest => s.parts ++ partsOfList rest

end

/-- A logical member with one of some operators, over groups that have what it is proposed over. -/
def IsLogicalEntry (parts : List (Operator × List Source)) (memo : Memo ν) (m : Member) : Prop :=
  ∃ part ∈ parts, ∃ g gs, Source.AreIn memo part.2 gs ∧
    memo.IsEntry g part.1 .logical gs (gs.map fun _ => .logical) m

/-- What a member may be that is new when a proposal was inserted. -/
def Proposal.Admits (p : Proposal) (memo : Memo ν) (m : Member) : Prop :=
  match p with
  | .substitution op children =>
      ∃ g, memo.IsEntry g op .logical children (children.map fun _ => .logical) m
  | .compound op children => IsLogicalEntry ((op, children) :: Source.partsOfList children) memo m
  | .physical op c inputs => op ≠ .converter c ∧
      (∃ g, memo.IsEntry g op c (inputs.map Prod.fst) (inputs.map Prod.snd) m) ∧
        ∀ slot ∈ inputs, slot.2 ∈ (memo.group slot.1).required

theorem isStable_isLogicalEntry (parts : List (Operator × List Source)) :
    IsStable (IsLogicalEntry (ν := ν) parts) := by
  rintro before after m hbefore h hm ⟨part, hpart, g, gs, hgs, hentry⟩
  exact ⟨part, hpart, g, gs, Source.areIn_of_growsTo h hbefore part.2 gs hgs,
    isStable_isEntry g part.1 _ gs _ before after m hbefore h hm hentry⟩

theorem Proposal.isStable_admits (p : Proposal) : IsStable (p.Admits (ν := ν)) := by
  intro before after m hbefore h hm hp
  cases p with
  | substitution op children =>
      obtain ⟨g, hentry⟩ := hp
      exact ⟨g, isStable_isEntry g op _ children _ before after m hbefore h hm hentry⟩
  | compound op children => exact isStable_isLogicalEntry _ before after m hbefore h hm hp
  | physical op c inputs =>
      obtain ⟨hne, ⟨g, hentry⟩, hrequired⟩ := hp
      exact ⟨hne, ⟨g, isStable_isEntry g op _ _ _ before after m hbefore h hm hentry⟩,
        fun slot hslot => h.required slot.1 slot.2 (hrequired slot hslot)⟩

namespace Search

/-! ## Inserting -/

mutual

/-- When an input became a group, it is in the memo as that group, and nothing is new but its
operators. -/
theorem returns_materialize : ∀ (s : Source) {memo after : Memo ν} {g : GroupId}, memo.Settled →
    (∀ x ∈ s.groups, x < memo.groups.size) → Returns (materialize s) memo g after →
      memo.AddsTo (IsLogicalEntry s.parts) after ∧ s.IsIn after g ∧ g < after.groups.size
  | .group x, memo, after, g, h, hs, hrun => by
      cases hrun
      unfold Source.IsIn
      exact ⟨h.addsTo_self, (h.led.leader_leader x).symm,
        h.led.leader_lt (hs x List.mem_cons_self)⟩
  | .fresh op children, memo, after, g, h, hs, hrun => by
      unfold materialize at hrun
      obtain ⟨gs, mid, hlist, hadd⟩ := returns_bind.mp hrun
      obtain ⟨hmid, hgs, hlt⟩ := returns_materializeList children h hs hlist
      obtain ⟨hafter, hhas, hg⟩ := hmid.settled.returns_addLogical hlt hadd
      have hgs' := Source.areIn_of_growsTo hafter.toGrowsTo hmid.settled children gs hgs
      unfold Source.IsIn
      refine ⟨?_, ⟨gs, hgs', hhas⟩, hg⟩
      have hold : memo.AddsTo (IsLogicalEntry (Source.parts (.fresh op children))) mid := by
        refine hmid.imp fun m hm => ?_
        obtain ⟨part, hpart, hentry⟩ := hm
        exact ⟨part, List.mem_cons_of_mem _ hpart, hentry⟩
      refine hold.trans (hafter.imp fun m hm => ?_) (isStable_isLogicalEntry _)
      exact ⟨(op, children), List.mem_cons_self, g, gs, hgs', hm⟩

theorem returns_materializeList : ∀ (ss : List Source) {memo after : Memo ν} {gs : List GroupId},
    memo.Settled → (∀ x ∈ Source.groupsOfList ss, x < memo.groups.size) →
      Returns (materializeList ss) memo gs after →
        memo.AddsTo (IsLogicalEntry (Source.partsOfList ss)) after ∧ Source.AreIn after ss gs ∧
          ∀ g ∈ gs, g < after.groups.size
  | [], memo, after, gs, h, hss, hrun => by
      cases hrun
      unfold Source.AreIn
      exact ⟨h.addsTo_self, rfl, fun g hg => absurd hg List.not_mem_nil⟩
  | s :: rest, memo, after, gs, h, hss, hrun => by
      obtain ⟨hs, hrest⟩ := List.forall_mem_append.mp hss
      unfold materializeList at hrun
      obtain ⟨g, mid, hfirst, hmore⟩ := returns_bind.mp hrun
      obtain ⟨gs', last, hlist, hpure⟩ := returns_bind.mp hmore
      obtain ⟨rfl, rfl⟩ := returns_pure.mp hpure
      obtain ⟨hmid, hin, hg⟩ := returns_materialize s h hs hfirst
      obtain ⟨hlast, hins, hgs⟩ := returns_materializeList rest hmid.settled
        (fun x hx => Nat.lt_of_lt_of_le (hrest x hx) hmid.groups) hlist
      have hinLast := Source.isIn_of_growsTo hlast.toGrowsTo hmid.settled s g hin
      unfold Source.AreIn
      refine ⟨?_, ⟨g, gs', rfl, hinLast, hins⟩,
        List.forall_mem_cons.mpr ⟨Nat.lt_of_lt_of_le hg hlast.groups, hgs⟩⟩
      refine AddsTo.trans (hmid.imp fun m hm => ?_) (hlast.imp fun m hm => ?_)
        (isStable_isLogicalEntry _)
      · obtain ⟨part, hpart, hentry⟩ := hm
        exact ⟨part, List.mem_append_left _ hpart, hentry⟩
      · obtain ⟨part, hpart, hentry⟩ := hm
        exact ⟨part, List.mem_append_right _ hpart, hentry⟩

end

variable {memo after : Memo ν} {g : GroupId} {rule : String}

/-- What an operator needs of its inputs is required of them, and no member is new. -/
theorem addsTo_requireAll (h : memo.Settled) (inputs : List (GroupId × Convention))
    (hlt : ∀ g ∈ inputs.map Prod.fst, g < memo.groups.size) :
    memo.AddsTo (fun _ _ => False) (inputs.foldl (fun memo (child, c) => memo.require child c) memo) ∧
      ∀ slot ∈ inputs, slot.2 ∈ ((inputs.foldl (fun memo (child, c) =>
        memo.require child c) memo).group slot.1).required := by
  induction inputs generalizing memo with
  | nil => exact ⟨h.addsTo_self, fun slot hslot => absurd hslot List.not_mem_nil⟩
  | cons input rest ih =>
      obtain ⟨hinput, hrest⟩ := List.forall_mem_cons.mp hlt
      have hfirst : memo.AddsTo (fun _ _ => False) (memo.require input.1 input.2) :=
        h.addsTo_require input.1 input.2
      obtain ⟨hadds, hrequired⟩ := ih hfirst.settled
        fun g hg => Nat.lt_of_lt_of_le (hrest g hg) hfirst.groups
      refine ⟨hfirst.trans hadds fun _ _ _ _ _ _ hfalse => hfalse, ?_⟩
      refine List.forall_mem_cons.mpr ⟨hadds.required input.1 input.2 ?_, hrequired⟩
      exact (mem_required_require h.led hinput).mpr (Or.inr ⟨rfl, rfl⟩)

/-- When a proposal was inserted, it is in the memo, and nothing is new but what it admits. -/
theorem returns_insert (h : memo.Settled) (hg : g < memo.groups.size) {p : Proposal}
    (hp : p.IsRegular memo.groups.size) {u : Unit} (hrun : Returns (insert g rule p) memo u after) :
    memo.AddsTo p.Admits after ∧ p.IsIn after g := by
  obtain ⟨hlt, -⟩ := hp
  cases p with
  | substitution op children =>
      obtain ⟨m, mid, hadd, hpure⟩ := returns_bind.mp hrun
      obtain ⟨-, rfl⟩ := returns_pure.mp hpure
      obtain ⟨hadds, hhas, -⟩ := h.returns_addTo hg hlt hadd
      exact ⟨hadds.imp fun m hm => ⟨g, hm⟩, hhas⟩
  | compound op children =>
      obtain ⟨gs, mid, hlist, hmore⟩ := returns_bind.mp hrun
      obtain ⟨m, last, hadd, hpure⟩ := returns_bind.mp hmore
      obtain ⟨-, rfl⟩ := returns_pure.mp hpure
      obtain ⟨hmid, hgs, hlt'⟩ := returns_materializeList children h hlt hlist
      obtain ⟨hadds, hhas, -⟩ :=
        hmid.settled.returns_addTo (Nat.lt_of_lt_of_le hg hmid.groups) hlt' hadd
      have hgs' := Source.areIn_of_growsTo hadds.toGrowsTo hmid.settled children gs hgs
      refine ⟨?_, gs, hgs', hhas⟩
      refine AddsTo.trans (hmid.imp fun m hm => ?_) (hadds.imp fun m hm => ?_)
        (isStable_isLogicalEntry ((op, children) :: Source.partsOfList children))
      · obtain ⟨part, hpart, hentry⟩ := hm
        exact ⟨part, List.mem_cons_of_mem _ hpart, hentry⟩
      · exact ⟨(op, children), List.mem_cons_self, g, gs, hgs', hm⟩
  | physical op c inputs =>
      unfold insert at hrun
      dsimp only at hrun
      split at hrun
      · next hop =>
          cases hrun
          exact ⟨h.addsTo_self, Or.inl hop⟩
      · next hop =>
          obtain ⟨_, asked, hask, hmore⟩ := returns_bind.mp hrun
          obtain ⟨m, last, hadd, hpure⟩ := returns_bind.mp hmore
          obtain ⟨-, rfl⟩ := returns_pure.mp hpure
          obtain rfl := returns_modify.mp hask
          obtain ⟨hasked, hrequired⟩ := addsTo_requireAll h inputs hlt
          have hlt' : ∀ child ∈ inputs.map Prod.fst, child < (inputs.foldl (fun memo (child, c) =>
              memo.require child c) memo).groups.size := fun child hchild =>
            Nat.lt_of_lt_of_le (hlt child hchild) hasked.groups
          obtain ⟨hadds, hhas, -⟩ :=
            hasked.settled.returns_addTo (Nat.lt_of_lt_of_le hg hasked.groups) hlt' hadd
          have hrequired' : ∀ slot ∈ inputs, slot.2 ∈ (after.group slot.1).required :=
            fun slot hslot => hadds.required slot.1 slot.2 (hrequired slot hslot)
          refine ⟨?_, Or.inr ⟨hhas, hrequired'⟩⟩
          refine AddsTo.trans (hasked.imp fun m hm => hm.elim) (hadds.imp fun m hm => ?_)
            (Proposal.isStable_admits (.physical op c inputs))
          exact ⟨hop, ⟨g, hm⟩, hrequired'⟩

/-- So it is with all that a rule proposed. -/
theorem returns_insertAll {ps : List Proposal} {s t : Search ν} {u : PUnit}
    (h : Returns (forIn ps PUnit.unit fun p _ => do
      edit (insert g rule p)
      pure (ForInStep.yield PUnit.unit)) s u t)
    (hs : s.memo.Settled) (hg : g < s.memo.groups.size)
    (hps : ∀ p ∈ ps, p.IsRegular s.memo.groups.size) :
    t = { s with memo := t.memo } ∧
      s.memo.AddsTo (fun memo m => ∃ p ∈ ps, p.Admits memo m) t.memo ∧
      ∀ p ∈ ps, p.IsIn t.memo g := by
  induction ps generalizing s with
  | nil =>
      obtain ⟨-, rfl⟩ := returns_pure.mp h
      exact ⟨rfl, hs.addsTo_self, fun p hp => absurd hp List.not_mem_nil⟩
  | cons p rest ih =>
      obtain ⟨hp, hrest⟩ := List.forall_mem_cons.mp hps
      rw [List.forIn_cons] at h
      obtain ⟨r, mid, hfirst, h⟩ := returns_bind.mp h
      obtain ⟨_, edited, hedit, hpure⟩ := returns_bind.mp hfirst
      obtain ⟨rfl, rfl⟩ := returns_pure.mp hpure
      obtain ⟨memo, hinsert, rfl⟩ := returns_edit.mp hedit
      obtain ⟨hadds, hin⟩ := returns_insert hs hg hp hinsert
      have hsizes := hadds.groups
      obtain ⟨ht, hmore, hall⟩ := ih h hadds.settled (Nat.lt_of_lt_of_le hg hsizes)
        fun q hq => (hrest q hq).mono hsizes
      refine ⟨by rw [ht], ?_, List.forall_mem_cons.mpr ⟨?_, hall⟩⟩
      · refine AddsTo.trans (hadds.imp fun m hm => ?_) (hmore.imp fun m hm => ?_) ?_
        · exact ⟨p, List.mem_cons_self, hm⟩
        · obtain ⟨q, hq, hadmits⟩ := hm
          exact ⟨q, List.mem_cons_of_mem p hq, hadmits⟩
        · rintro before after m hbefore hgrows hm ⟨q, hq, hadmits⟩
          exact ⟨q, hq, q.isStable_admits before after m hbefore hgrows hm hadmits⟩
      · exact Proposal.isIn_of_growsTo hmore.toGrowsTo hadds.settled hin

/-! ## Firing -/

/-- What a memo becomes when a rule is fired for a member: the rule is marked, and what it proposed
is in the group of the member. -/
structure Fires (planner : Planner ν) (rule : Rule ν) (m : MemberId) (before after : Memo ν) :
    Prop where
  run : ∃ s t : Search ν, s.memo = before ∧ t.memo = after ∧ Returns (fire planner rule m) s true t
  fresh : before.wasApplied m rule.hash = false
  met : rule.pattern.isMetBy before (before.member m) = true
  grows : before.GrowsTo after
  marks : ∀ i hash, after.wasApplied i hash =
    (decide ((i, hash) = (m, rule.hash)) || before.wasApplied i hash)
  added : ∀ i, before.members.size ≤ i → i < after.members.size →
    ∃ p ∈ rule.propose planner.catalog before (before.member m), p.Admits after (after.member i)
  isIn : ∀ p ∈ rule.propose planner.catalog before (before.member m),
    p.IsIn after (before.member m).group

/-- Firing a rule for a member does nothing if it was applied or does not apply, or if the budget
does not allow it; and else everything that the rule proposes for the member is in the memo. -/
theorem returns_fire {planner : Planner ν} {rule : Rule ν} (hrule : rule.IsRegular planner.catalog)
    {m : MemberId} {s t : Search ν} (hs : s.memo.Settled) (hm : m < s.memo.members.size) {b : Bool}
    (h : Returns (fire planner rule m) s b t) :
    b = true ∧ t = s ∧ (s.memo.wasApplied m rule.hash = true ∨
      rule.pattern.isMetBy s.memo (s.memo.member m) = false) ∨
    b = false ∧ planner.budget.iterations ≤ s.iterations ∧ t = { s with cutShort := true } ∨
    b = true ∧ s.iterations < planner.budget.iterations ∧
      t = { s with memo := t.memo, iterations := s.iterations + 1 } ∧
      Fires planner rule m s.memo t.memo := by
  have hfire := h
  unfold fire at h
  obtain ⟨memo, u, hmemo, h⟩ := returns_bind.mp h
  obtain ⟨rfl, rfl⟩ := returns_memoNow.mp hmemo
  dsimp only at h
  split at h
  · next happlied =>
      obtain ⟨rfl, rfl⟩ := returns_pure.mp h
      exact Or.inl ⟨rfl, rfl, Or.inl happlied⟩
  · next hfresh =>
      split at h
      · next hmet =>
          obtain ⟨rfl, rfl⟩ := returns_pure.mp h
          exact Or.inl ⟨rfl, rfl, Or.inr (by simpa using hmet)⟩
      · next hmet =>
          rw [Bool.not_eq_true', Bool.not_eq_false] at hmet
          have hregular := hrule u.memo hs m hm hmet
          have hgroup := (hs.member m hm).1.group_lt hs.led
          obtain ⟨goesOn, v, hspend, h⟩ := returns_bind.mp h
          rcases returns_spend hspend with ⟨rfl, hle, rfl⟩ | ⟨rfl, hlt, rfl⟩
          · obtain ⟨rfl, rfl⟩ := returns_pure.mp h
            exact Or.inr (Or.inl ⟨rfl, hle, rfl⟩)
          · -- the rule is marked first, and then its proposals are inserted
            obtain ⟨_, marked, hmark, h⟩ := returns_bind.mp h
            rw [returns_modifyMemo] at hmark
            subst hmark
            obtain ⟨_, w, hall, h⟩ := returns_bind.mp h
            obtain ⟨rfl, rfl⟩ := returns_pure.mp h
            have hmarked := hs.growsTo_markApplied m rule.hash
            obtain ⟨ht, hadds, hin⟩ := returns_insertAll hall hmarked.settled hgroup hregular
            refine Or.inr (Or.inr ⟨rfl, hlt, ht, ?_⟩)
            constructor
            · exact ⟨u, t, rfl, rfl, hfire⟩
            · exact Bool.eq_false_iff.mpr hfresh
            · exact hmet
            · exact hmarked.trans hadds.toGrowsTo
            · intro i hash
              rw [hadds.unmarked]
              exact wasApplied_markApplied u.memo m i rule.hash hash hm
            · intro i hle hi
              exact hadds.added i (Nat.le_trans (Nat.le_of_eq (Array.size_modify ..)) hle) hi
            · exact hin

end Search

end QueryPlanner
