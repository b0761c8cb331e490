/-
# Searches keep the memo in order

A search only makes calls on groups that exist, as far as its rules name such groups, so that the
memo stays settled. The converters in it are those that the search itself inserted: each asks for
one input, in another convention, from which there is a convertlet to its own.

* `Memo.EveryMember` : what holds of all members whatever becomes of their groups;
* `Registry.Bridges` : what a search knows of the converters it inserts;
* `IsKeptByCalls.isKept` : what calls on groups that exist keep, a search keeps;
* `IsSturdy` : a settled memo all whose converters bridge two conventions;
* `isKept_isSturdy` : a search with regular rules keeps a memo sturdy.
-/
import QueryPlanner.Proofs.Memo.Progress
import QueryPlanner.Proofs.Proposal
import QueryPlanner.Proofs.Search.Invariants
import QueryPlanner.Proofs.Search.Pricing

namespace QueryPlanner

variable {ν : Type}

namespace Memo

variable {memo : Memo ν} {Q : Operator → Convention → List Convention → Prop}

/-! ## What all members are -/

/-- Something holds of the operator, the convention and the conventions of the inputs of every
member. -/
def EveryMember (Q : Operator → Convention → List Convention → Prop) (memo : Memo ν) : Prop :=
  ∀ m < memo.members.size, Q (memo.member m).op (memo.member m).convention (memo.member m).inputs

/-- Merges change nothing of it. -/
theorem keeps_everyMember_merge (a b : GroupId) (origin : String) :
    Keeps (EveryMember Q) (merge a b origin : Edit ν Unit) := by
  refine keeps_merge_of_absorb (fun memo h m hm => ?_) (fun memo root victim h m hm => ?_) a b origin
  · rw [size_members_reindexed] at hm
    rw [member_reindexed hm]
    exact h m hm
  · have hlt : m < memo.members.size := lt_of_lt_of_eq hm (Array.size_map ..)
    rw [member_absorb hlt]
    exact h m hlt

section Push

variable {op : Operator} {c : Convention} {inputs : List Convention} (hQ : Q op c inputs)

include hQ

theorem EveryMember.pushMember (h : memo.EveryMember Q) (g : GroupId) (children : List GroupId) :
    (memo.pushMember g op c children inputs).EveryMember Q := by
  intro m hm
  have hsize : (memo.pushMember g op c children inputs).members.size = memo.members.size + 1 :=
    Array.size_push ..
  rw [hsize] at hm
  rw [member_pushMember]
  split
  · exact hQ
  · next hne => exact h m (Nat.lt_of_le_of_ne (Nat.le_of_lt_succ hm) hne)

theorem keeps_everyMember_add (children : List GroupId) :
    Keeps (EveryMember Q) (add op c children inputs : Edit ν _) := by
  refine keeps_add_of_push (fun memo t children h => ?_) children
  have hgrown : (memo.pushGroup t).EveryMember Q := h
  exact hgrown.pushMember hQ _ _

theorem keeps_everyMember_addTo (g : GroupId) (children : List GroupId) (origin : String) :
    Keeps (EveryMember Q) (addTo g op c children inputs origin : Edit ν MemberId) :=
  keeps_addTo_of_push (fun _ g children h => h.pushMember hQ g children) keeps_everyMember_merge g
    children origin

end Push

theorem EveryMember.markApplied (h : memo.EveryMember Q) (m : MemberId) (hash : UInt64) :
    (memo.markApplied m hash).EveryMember Q := by
  intro i hi
  obtain ⟨applied, hread⟩ := memo.member_markApplied m i hash
  rw [hread]
  exact h i (lt_of_lt_of_eq hi (Array.size_modify ..))

theorem EveryMember.of_sameUpTo {other : Memo ν} {note : Group ν → Group ν}
    (h : memo.EveryMember Q) (hsame : SameUpTo note other memo) : other.EveryMember Q := by
  intro m hm
  rw [hsame.members] at hm
  rw [hsame.member]
  exact h m hm

/-- An orderly edit leaves a settled memo, whether it fails or not. -/
theorem Orderly.settled {α : Type} {x : Edit ν α} (h : memo.Orderly x) (hmemo : memo.Settled) :
    (x.run.run memo).2.Settled := by
  rcases h with ⟨e, -, hrun⟩ | ⟨a, after, hrun, hafter, -⟩
  · rw [hrun]
    exact hmemo
  · rw [hrun]
    exact hafter

/-- The group that a logical member is added in exists afterwards, and no group goes. -/
theorem Settled.size_addLogical (h : memo.Settled) {op : Operator} {children : List GroupId}
    {r : Except (OptimizationError ν) GroupId} {after : Memo ν}
    (hrun : (Memo.addLogical op children).run.run memo = (r, after)) :
    memo.groups.size ≤ after.groups.size ∧ ∀ g, r = .ok g → g < after.groups.size := by
  unfold Memo.addLogical at hrun
  rw [run_bind, run_add] at hrun
  rcases hindex : memo.index.get? (.of op .logical (children.map memo.leader)
    (children.map fun _ => .logical)) with _ | m
  · rw [hindex] at hrun
    dsimp only at hrun
    rcases hderive : memo.deriveRowType op (children.map memo.leader)
      (children.map fun _ => .logical) with e | t
    · rw [hderive] at hrun
      cases hrun
      exact ⟨Nat.le_refl _, fun g hg => nomatch hg⟩
    · rw [hderive] at hrun
      cases hrun
      have hsize : ((memo.pushGroup t).pushMember memo.groups.size op .logical
          (children.map memo.leader) (children.map fun _ => .logical)).groups.size =
          memo.groups.size + 1 := (Array.size_modify ..).trans (Array.size_push ..)
      rw [hsize]
      refine ⟨Nat.le_succ _, fun g hg => ?_⟩
      cases hg
      exact Nat.lt_succ_self _
  · rw [hindex] at hrun
    cases hrun
    refine ⟨Nat.le_refl _, fun g hg => ?_⟩
    cases hg
    exact (h.member m (h.knows _ _ hindex).1).1.group_lt h.led

end Memo

/-- What a search knows of an operator that is run in a convention, over inputs in conventions: a
converter has one input, in another convention, from which there is a convertlet to its own. -/
def Registry.Bridges (registry : Registry ν) (op : Operator) (c : Convention)
    (inputs : List Convention) : Prop :=
  ∀ source, op = .converter source → c.isLogical = false →
    inputs = [source] ∧ source ≠ c ∧ (registry.convertlet? source c).isSome

/-- Registered conversions have convertlets, and only they. -/
theorem Registry.isSome_convertlet?_iff {registry : Registry ν} {source target : Convention} :
    (registry.convertlet? source target).isSome ↔ (source, target) ∈ registry.conversions :=
  Convertlets.isSome_lookup?_iff.trans (registry.bridged _).symm

theorem Registry.isSome_convertlet? {registry : Registry ν} {hop : Convention × Convention}
    (h : hop ∈ registry.conversions) : (registry.convertlet? hop.1 hop.2).isSome :=
  isSome_convertlet?_iff.mpr h

/-- Something holds of the physical operator that is proposed, unless it is a converter that would
convert nothing. -/
def Proposal.Meets (Q : Operator → Convention → List Convention → Prop) : Proposal → Prop
  | .physical op c inputs => op ≠ .converter c → Q op c (inputs.map Prod.snd)
  | _ => True

namespace Search

open Memo

/-! ## Calls on groups that exist -/

/-- A property of settled memos that is kept by adding to groups which exist, as far as something
holds of the operator, its convention and those of its inputs, and by the notes of a search. -/
structure IsKeptByCalls (Q : Operator → Convention → List Convention → Prop) (P : Memo ν → Prop) :
    Prop where
  logical : ∀ op inputs, Q op .logical inputs
  settled : ∀ {memo : Memo ν}, P memo → memo.Settled
  addLogical : ∀ {memo : Memo ν} (op : Operator) {children : List GroupId}, P memo →
    (∀ child ∈ children, child < memo.groups.size) → P ((addLogical op children).run.run memo).2
  addTo : ∀ {memo : Memo ν} {g : GroupId} {op : Operator} {c : Convention} {children : List GroupId}
    {inputs : List Convention} (origin : String), P memo → g < memo.groups.size →
    (∀ child ∈ children, child < memo.groups.size) → Q op c inputs →
    P ((addTo g op c children inputs origin).run.run memo).2
  require : ∀ {memo : Memo ν} (g : GroupId) (c : Convention), P memo → P (memo.require g c)
  markApplied : ∀ {memo : Memo ν} (m : MemberId) (hash : UInt64), P memo →
    P (memo.markApplied m hash)

namespace IsKeptByCalls

variable {Q : Operator → Convention → List Convention → Prop} {P : Memo ν → Prop}

mutual

/-- An input that names groups which exist becomes a group that exists. -/
theorem materialize (h : IsKeptByCalls Q P) : ∀ (s : Source) {memo after : Memo ν}
    {r : Except (OptimizationError ν) GroupId}, P memo →
      (∀ g ∈ s.groups, g < memo.groups.size) → (Search.materialize s).run.run memo = (r, after) →
        P after ∧ memo.groups.size ≤ after.groups.size ∧ ∀ g, r = .ok g → g < after.groups.size
  | .group g, memo, after, r, hmemo, hs, hrun => by
      cases hrun
      refine ⟨hmemo, Nat.le_refl _, fun x hx => ?_⟩
      cases hx
      exact (h.settled hmemo).led.leader_lt (hs g List.mem_cons_self)
  | .fresh op children, memo, after, r, hmemo, hs, hrun => by
      unfold Search.materialize at hrun
      rw [run_bind] at hrun
      rcases hlist : (Search.materializeList children).run.run memo with ⟨e | gs, between⟩
      · rw [hlist] at hrun
        cases hrun
        obtain ⟨hafter, hsize, -⟩ := h.materializeList children hmemo hs hlist
        exact ⟨hafter, hsize, fun g hg => nomatch hg⟩
      · rw [hlist] at hrun
        dsimp only at hrun
        obtain ⟨hbetween, hsize, hgs⟩ := h.materializeList children hmemo hs hlist
        obtain ⟨hmore, hgroup⟩ := (h.settled hbetween).size_addLogical hrun
        have hafter := h.addLogical op hbetween (hgs gs rfl)
        rw [hrun] at hafter
        exact ⟨hafter, hsize.trans hmore, hgroup⟩

theorem materializeList (h : IsKeptByCalls Q P) : ∀ (ss : List Source) {memo after : Memo ν}
    {r : Except (OptimizationError ν) (List GroupId)}, P memo →
      (∀ g ∈ Source.groupsOfList ss, g < memo.groups.size) →
        (Search.materializeList ss).run.run memo = (r, after) →
          P after ∧ memo.groups.size ≤ after.groups.size ∧
            ∀ gs, r = .ok gs → ∀ g ∈ gs, g < after.groups.size
  | [], memo, after, r, hmemo, hss, hrun => by
      cases hrun
      refine ⟨hmemo, Nat.le_refl _, fun gs hgs => ?_⟩
      cases hgs
      exact fun g hg => absurd hg List.not_mem_nil
  | s :: rest, memo, after, r, hmemo, hss, hrun => by
      obtain ⟨hs, hrest⟩ := List.forall_mem_append.mp hss
      unfold Search.materializeList at hrun
      rw [run_bind] at hrun
      rcases hfirst : (Search.materialize s).run.run memo with ⟨e | g, between⟩
      · rw [hfirst] at hrun
        cases hrun
        obtain ⟨hafter, hsize, -⟩ := h.materialize s hmemo hs hfirst
        exact ⟨hafter, hsize, fun gs hgs => nomatch hgs⟩
      · rw [hfirst] at hrun
        dsimp only at hrun
        obtain ⟨hbetween, hsize, hgroup⟩ := h.materialize s hmemo hs hfirst
        have hrest' := fun x hx => Nat.lt_of_lt_of_le (hrest x hx) hsize
        rw [run_bind] at hrun
        rcases hlist : (Search.materializeList rest).run.run between with ⟨e | gs, last⟩
        · rw [hlist] at hrun
          cases hrun
          obtain ⟨hafter, hmore, -⟩ := h.materializeList rest hbetween hrest' hlist
          exact ⟨hafter, hsize.trans hmore, fun gs hgs => nomatch hgs⟩
        · rw [hlist] at hrun
          cases hrun
          obtain ⟨hafter, hmore, hgs⟩ := h.materializeList rest hbetween hrest' hlist
          refine ⟨hafter, hsize.trans hmore, fun all hall => ?_⟩
          cases hall
          exact List.forall_mem_cons.mpr ⟨Nat.lt_of_lt_of_le (hgroup g rfl) hmore, hgs gs rfl⟩

end

section Proposals

variable (h : IsKeptByCalls Q P) {n : Nat}

include h

theorem keeps_addTo {g : GroupId} (hg : g < n) {op : Operator} {c : Convention}
    {children : List GroupId} (hlt : ∀ child ∈ children, child < n) {inputs : List Convention}
    (hop : Q op c inputs) (origin : String) :
    Keeps (fun memo => P memo ∧ n ≤ memo.groups.size)
      (Memo.addTo g op c children inputs origin : Edit ν MemberId) := by
  rintro memo ⟨hmemo, hn⟩
  refine ⟨?_, hn.trans_eq (keeps_size_addTo _ g op c children inputs origin memo rfl).symm⟩
  exact h.addTo origin hmemo (Nat.lt_of_lt_of_le hg hn)
    (fun child hchild => Nat.lt_of_lt_of_le (hlt child hchild) hn) hop

/-- What is proposed over groups that exist may be inserted. -/
theorem keeps_insert {g : GroupId} (hg : g < n) {p : Proposal} (hlt : ∀ x ∈ p.groups, x < n)
    (hp : p.Meets Q) (rule : String) :
    Keeps (fun memo => P memo ∧ n ≤ memo.groups.size) (insert g rule p : Edit ν Unit) := by
  cases p with
  | substitution op children =>
      exact (h.keeps_addTo hg hlt (h.logical op _) rule).bind fun _ => keeps_pure _
  | compound op children =>
      rintro memo ⟨hmemo, hn⟩
      unfold insert
      rw [run_bind]
      rcases hlist : (Search.materializeList children).run.run memo with ⟨e | gs, between⟩
      · obtain ⟨hbetween, hsize, -⟩ := h.materializeList children hmemo
          (fun x hx => Nat.lt_of_lt_of_le (hlt x hx) hn) hlist
        exact ⟨hbetween, hn.trans hsize⟩
      · obtain ⟨hbetween, hsize, hgs⟩ := h.materializeList children hmemo
          (fun x hx => Nat.lt_of_lt_of_le (hlt x hx) hn) hlist
        -- the inputs exist from here on, as the group does
        have hkeeps : Keeps (fun memo => P memo ∧ between.groups.size ≤ memo.groups.size)
            (addLogicalTo g op gs rule : Edit ν Unit) :=
          (h.keeps_addTo (Nat.lt_of_lt_of_le hg (hn.trans hsize)) (hgs gs rfl)
            (h.logical op _) rule).bind fun _ => keeps_pure _
        obtain ⟨hafter, hmore⟩ := hkeeps between ⟨hbetween, Nat.le_refl _⟩
        exact ⟨hafter, (hn.trans hsize).trans hmore⟩
  | physical op c inputs =>
      unfold insert
      dsimp only
      split
      · exact keeps_pure _
      · next hconverter =>
          refine (keeps_modify fun memo hmemo => ?_).bind fun _ =>
            (h.keeps_addTo hg hlt (hp hconverter) rule).bind fun _ => keeps_pure _
          clear hlt hp
          induction inputs generalizing memo with
          | nil => exact hmemo
          | cons input rest ih =>
              refine ih _ ⟨h.require input.1 input.2 hmemo.1, ?_⟩
              exact hmemo.2.trans_eq (Array.size_modify ..).symm

variable {planner : Planner ν}

/-- Firing a rule for a member that exists keeps the property, if what the rule proposes names
groups that exist. -/
theorem fire {rule : Rule ν} (hrule : ∀ memo : Memo ν, P memo → ∀ m < memo.members.size,
      rule.pattern.isMetBy memo (memo.member m) = true →
        ∀ p ∈ rule.propose planner.catalog memo (memo.member m),
          (∀ g ∈ p.groups, g < memo.groups.size) ∧ p.Meets Q)
    {m : MemberId} {s : Search ν} (hs : P s.memo) (hm : m < s.memo.members.size) :
    P ((Search.fire planner rule m).run.run s).2.memo := by
  unfold Search.fire
  rw [run_bind_of_ok (show (memoNow : Step ν (Memo ν)).run.run s = (.ok s.memo, s) from rfl)]
  dsimp only
  split
  · exact hs
  · split
    · exact hs
    · next hmet =>
        rw [Bool.not_eq_true', Bool.not_eq_false] at hmet
        have hsettled := h.settled hs
        have hproposals := hrule s.memo hs m hm hmet
        have hgroup := (hsettled.member m hm).1.group_lt hsettled.led
        -- the proposals are made for the memo as it is now, and inserted into what it becomes
        have hkeeps : Keeps (fun t : Search ν => P t.memo ∧
            s.memo.groups.size ≤ t.memo.groups.size) (do
              let goesOn ← spend planner.budget
              if !goesOn then return false
              modifyMemo fun memo => memo.markApplied m rule.hash
              for proposal in rule.propose planner.catalog s.memo (s.memo.member m) do
                edit (insert (s.memo.member m).group rule.name proposal)
              return true : Step ν Bool) := by
          refine (keeps_spend (P := fun memo => P memo ∧
            s.memo.groups.size ≤ memo.groups.size) _).bind fun goesOn => ?_
          split
          · exact keeps_pure false
          · refine (keeps_modifyMemo (P := fun memo => P memo ∧
              s.memo.groups.size ≤ memo.groups.size) fun memo hmemo => ?_).bind fun _ => ?_
            · exact ⟨h.markApplied m rule.hash hmemo.1, hmemo.2⟩
            · refine (keeps_forIn (fun proposal hproposal _ => ?_) _).bind fun _ => keeps_pure true
              obtain ⟨hlt, hmeets⟩ := hproposals proposal hproposal
              exact (keeps_edit (h.keeps_insert hgroup hlt hmeets rule.name)).bind fun _ =>
                keeps_pure _
        exact (hkeeps s ⟨hs, Nat.le_refl _⟩).1

/-- A search keeps what its calls keep, if its rules name groups that exist. -/
theorem isKept [Quantity ν] (hrules : ∀ rule ∈ planner.registry.rules, ∀ memo : Memo ν,
      P memo → ∀ m < memo.members.size, rule.pattern.isMetBy memo (memo.member m) = true →
        ∀ p ∈ rule.propose planner.catalog memo (memo.member m),
          (∀ g ∈ p.groups, g < memo.groups.size) ∧ p.Meets Q)
    (hwinners : Keeps (fun s => P s.memo) (Search.findWinners planner))
    (hhop : ∀ hop ∈ planner.registry.conversions, hop.1 ≠ hop.2 →
      Q (.converter hop.1) hop.2 [hop.1]) : IsKept planner P where
  led _ hmemo := (h.settled hmemo).led
  require _ g c hmemo := h.require g c hmemo
  findWinners := hwinners
  fire rule hrule _ _ _ hbefore hm _ hs hle :=
    h.fire (hrules rule hrule) hs
      (Nat.lt_of_lt_of_le ((h.settled hbefore).lt_of_mem_group hm) hle)
  convert hop hmem hne _ _ hg hmemo :=
    h.addTo converterOrigin hmemo hg (List.forall_mem_singleton.mpr hg) (hhop hop hmem hne)

end Proposals

end IsKeptByCalls

/-! ## Sturdy memos -/

/-- A settled memo all whose converters bridge two conventions. -/
structure IsSturdy (registry : Registry ν) (memo : Memo ν) : Prop where
  settled : memo.Settled
  bridged : memo.EveryMember registry.Bridges

variable {registry : Registry ν}

theorem bridges_logical (op : Operator) (inputs : List Convention) :
    registry.Bridges op .logical inputs := fun _ _ h => nomatch h

/-- What a search knows of its converters is kept by adding to groups that exist. -/
theorem isKeptByCalls_isSturdy (registry : Registry ν) :
    IsKeptByCalls registry.Bridges (IsSturdy registry) where
  logical := bridges_logical
  settled h := h.settled
  addLogical op children h hlt :=
    ⟨(h.settled.addLogical hlt).settled h.settled,
      ((keeps_everyMember_add (bridges_logical op _) children).bind fun r => keeps_pure r.1) _
        h.bridged⟩
  addTo origin h hg hlt hop :=
    ⟨(h.settled.addTo hg hlt origin).settled h.settled,
      keeps_everyMember_addTo hop _ _ origin _ h.bridged⟩
  require {memo} g c h := by
    have hsame := sameUpTo_require memo g c
    exact ⟨h.settled.of_sameUpTo hsame fun _ => ⟨rfl, rfl⟩, h.bridged.of_sameUpTo hsame⟩
  markApplied m hash h := ⟨h.settled.markApplied m hash, h.bridged.markApplied m hash⟩

/-- What is proposed regularly is no converter. -/
theorem isRegular_meets {n : Nat} {p : Proposal} (h : p.IsRegular n) :
    p.Meets registry.Bridges := by
  cases p with
  | physical op c inputs =>
      intro _ source hop _
      have hconverter := h.not_isConverter
      rw [hop] at hconverter
      exact absurd trivial hconverter
  | _ => exact trivial

/-- A search whose rules are regular keeps the memo sturdy. -/
theorem isKept_isSturdy [Quantity ν] {planner : Planner ν}
    (hrules : ∀ rule ∈ planner.registry.rules, rule.IsRegular planner.catalog) :
    IsKept planner (IsSturdy planner.registry) := by
  refine (isKeptByCalls_isSturdy planner.registry).isKept ?_ (fun s h => ?_) fun hop hmem hne => ?_
  · intro rule hrule memo hmemo m hm hmet p hp
    have hregular := hrules rule hrule memo hmemo.settled m hm hmet p hp
    exact ⟨hregular.groups_lt, isRegular_meets hregular⟩
  · have hsame := findWinners_sameUpTo planner s
    exact ⟨h.settled.of_sameUpTo hsame fun _ => ⟨rfl, rfl⟩, h.bridged.of_sameUpTo hsame⟩
  · intro source hsource _
    cases hsource
    exact ⟨rfl, hne, Registry.isSome_convertlet? hmem⟩

end Search

end QueryPlanner
