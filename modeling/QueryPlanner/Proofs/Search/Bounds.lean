/-
# Searches within limits

Inserting what suits, and converting between conventions that are known, is never refused and keeps
a memo within limits. A rule is fired for a member only once, and a conversion is tried for a group
only once; and as there are only so many members and groups that a memo within limits may have, there
is only so much to spend iterations on. So a budget above that cuts no pass short.

* `exists_insert` : inserting what suits keeps a memo within limits;
* `Job`, `work` : what iterations are spent on, and how much of it is left;
* `Search.IsBounded` : a search within limits;
* `exists_fireAll`, `exists_convertAll` : both passes go on to their end, and stay within limits.
-/
import Mathlib.Algebra.Order.BigOperators.Group.Finset
import QueryPlanner.Proofs.Conversions
import QueryPlanner.Proofs.Search.Converters
import QueryPlanner.Proofs.Search.Insertion
import QueryPlanner.Proofs.Search.Invariants
import QueryPlanner.Proofs.Suitability

namespace QueryPlanner

open Memo

variable {ν : Type} {lim : Limits}

/-! ## Insertions -/

namespace Memo

variable {memo : Memo ν} {den : GroupId → Shape}

theorem IsBounded.expands_require (h : memo.IsBounded lim den) (g : GroupId) (c : Convention) :
    memo.Expands lim den den (memo.require g c) where
  bounded := h.expands_of_still (h.settled.growsTo_require g c) rfl rfl
  grows := h.settled.growsTo_require g c
  agree _ _ := rfl
  unmarked _ _ := rfl

/-- Conventions may be required of any groups. -/
theorem IsBounded.expands_requireAll (h : memo.IsBounded lim den)
    (inputs : List (GroupId × Convention)) :
    memo.Expands lim den den
      (inputs.foldl (fun memo (child, c) => memo.require child c) memo) := by
  induction inputs generalizing memo with
  | nil => exact h.expands_self
  | cons input rest ih =>
      have hfirst := h.expands_require input.1 input.2
      exact hfirst.trans (ih hfirst.bounded)

/-- A rule may be marked as applied. -/
theorem IsBounded.markApplied (h : memo.IsBounded lim den) (m : MemberId) (hash : UInt64) :
    (memo.markApplied m hash).IsBounded lim den :=
  h.expands_of_still (h.settled.growsTo_markApplied m hash) (Array.size_modify ..) rfl

end Memo

namespace Search

section Insert

variable {memo : Memo ν} {den : GroupId → Shape} {g : GroupId}

/-- Inputs that are groups are read through their leaders, and nothing is added for them. -/
theorem returns_materializeList_groups (memo : Memo ν) (gs : List GroupId) :
    Returns (materializeList (gs.map .group)) memo (gs.map memo.leader) memo := by
  induction gs with
  | nil => rfl
  | cons x rest ih =>
      rw [List.map_cons, materializeList]
      refine Returns.bind (a := memo.leader x) rfl (ih.bind ?_)
      exact returns_pure.mpr ⟨rfl, rfl⟩

/-- A logical operator within limits is added to a group of its shape. -/
theorem exists_addLogicalTo (h : memo.IsBounded lim den) (hg : g < memo.groups.size) {op : Operator}
    {children : List GroupId} (hlt : ∀ child ∈ children, child < memo.groups.size)
    (hpermits : lim.Permits op .logical children (children.map fun _ => .logical))
    (hop : op.Shapes (children.map den) (den g)) (rule : String) :
    ∃ after, Returns (addLogicalTo g op children rule) memo () after ∧
      memo.Expands lim den den after := by
  obtain ⟨m, after, hrun, hexpands⟩ := h.exists_addTo hlt hg hpermits (List.length_map ..) hop rule
  exact ⟨after, hrun.bind (returns_pure.mpr ⟨rfl, rfl⟩), hexpands⟩

/-- What suits the shape of a group can be inserted into it, and keeps the memo within limits. -/
theorem exists_insert (h : memo.IsBounded lim den) (hg : g < memo.groups.size) {p : Proposal}
    (hp : p.Suits lim den memo.groups.size (den g)) (rule : String) :
    ∃ after den', Returns (insert g rule p) memo () after ∧ memo.Expands lim den den' after := by
  cases p with
  | substitution op children =>
      obtain ⟨hlt, hop, hpermits⟩ := hp
      obtain ⟨after, hrun, hexpands⟩ := exists_addLogicalTo h hg hlt hpermits hop rule
      exact ⟨after, den, hrun, hexpands⟩
  | compound op sources =>
      obtain ⟨below, gs, inner, rfl, hlt, hbelow, hinner, hpermits, hop, hover, hkind⟩ := hp
      -- the new input is over leaders, which are as old as the groups that they stand for
      have hleader := h.settled.led.leader_le
      have hlt' : ∀ child ∈ gs.map memo.leader, child < memo.groups.size ∧ child < lim.older := by
        intro child hchild
        obtain ⟨x, hx, rfl⟩ := List.mem_map.mp hchild
        exact ⟨Nat.lt_of_le_of_lt (hleader x) (hlt x hx).1,
          Nat.lt_of_le_of_lt (hleader x) (hlt x hx).2⟩
      have hpermits' : lim.Permits below .logical (gs.map memo.leader)
          ((gs.map memo.leader).map fun _ => .logical) := by
        rw [List.map_map]
        exact hpermits.map hleader
      rw [← h.shaped.map_leader] at hbelow
      obtain ⟨x, mid, den₁, hadd, hfirst, hx, hshape⟩ := h.exists_addLogical
        (fun child hchild => (hlt' child hchild).1) hpermits' (fun child hchild =>
          (hlt' child hchild).2) hbelow hinner
      have hg' : g < mid.groups.size := Nat.lt_of_lt_of_le hg hfirst.grows.groups
      have hover' : lim.Permits op .logical [x] ([x].map fun _ => .logical) :=
        ⟨hover, fun hjoin => absurd hjoin hkind, lim.logical_mem,
          List.forall_mem_singleton.mpr lim.logical_mem⟩
      have hop' : op.Shapes ([x].map den₁) (den₁ g) := by
        rw [List.map_singleton, hshape, hfirst.agree g hg]
        exact hop
      obtain ⟨after, hrun, hsecond⟩ := exists_addLogicalTo hfirst.bounded hg'
        (List.forall_mem_singleton.mpr hx) hover' hop' rule
      have hsources : Returns (materializeList [.fresh below (gs.map .group)]) memo [x] mid := by
        rw [materializeList]
        refine Returns.bind (a := x) (t := mid) ?_ (Returns.bind (a := []) (t := mid) rfl
          (returns_pure.mpr ⟨rfl, rfl⟩))
        rw [materialize]
        exact (returns_materializeList_groups memo gs).bind hadd
      exact ⟨after, den₁, hsources.bind hrun, hfirst.trans hsecond⟩
  | physical op c inputs =>
      obtain ⟨hlt, hop, hpermits⟩ := hp
      unfold insert
      dsimp only
      split
      · exact ⟨memo, den, returns_pure.mpr ⟨rfl, rfl⟩, h.expands_self⟩
      · have hasked := h.expands_requireAll inputs
        have hsize := hasked.grows.groups
        obtain ⟨m, after, hrun, hexpands⟩ := hasked.bounded.exists_addTo
          (fun child hchild => Nat.lt_of_lt_of_le (hlt child hchild) hsize)
          (Nat.lt_of_lt_of_le hg hsize) hpermits
          (by rw [List.length_map, List.length_map]) hop rule
        refine ⟨after, den, ?_, hasked.trans hexpands⟩
        exact Returns.bind (a := ⟨⟩) (returns_modify.mpr rfl) (hrun.bind (returns_pure.mpr ⟨rfl, rfl⟩))

/-- So can all that suits it, one after another. -/
theorem exists_insertAll {ps : List Proposal} {s : Search ν} (h : s.memo.IsBounded lim den)
    (hg : g < s.memo.groups.size)
    (hps : ∀ p ∈ ps, p.Suits lim den s.memo.groups.size (den g)) (rule : String) :
    ∃ after den', Returns (forIn ps PUnit.unit fun p _ => do
        edit (insert g rule p)
        pure (ForInStep.yield PUnit.unit)) s PUnit.unit { s with memo := after } ∧
      s.memo.Expands lim den den' after := by
  induction ps generalizing s den with
  | nil => exact ⟨s.memo, den, returns_pure.mpr ⟨rfl, rfl⟩, h.expands_self⟩
  | cons p rest ih =>
      obtain ⟨hp, hrest⟩ := List.forall_mem_cons.mp hps
      obtain ⟨mid, den₁, hinsert, hfirst⟩ := exists_insert h hg hp rule
      have hsize := hfirst.grows.groups
      obtain ⟨after, den₂, hloop, hmore⟩ := ih (s := { s with memo := mid }) hfirst.bounded
        (Nat.lt_of_lt_of_le hg hsize) fun q hq => by
          rw [hfirst.agree g hg]
          exact (hrest q hq).mono hsize hfirst.agree
      refine ⟨after, den₂, ?_, hfirst.trans hmore⟩
      rw [List.forIn_cons]
      refine Returns.bind (Returns.bind (returns_edit.mpr ⟨mid, hinsert, rfl⟩)
        (returns_pure.mpr ⟨rfl, rfl⟩)) hloop

end Insert

/-! ## Jobs -/

/-- What a search spends iterations on: a rule is fired for a member, and the converters from one
convention to another are inserted for a group. -/
inductive Job
  | fire (m : MemberId) (hash : UInt64)
  | convert (g : GroupId) (source target : Convention)

/-- A job that will not be taken on again. -/
def Job.IsDone (s : Search ν) : Job → Prop
  | fire m hash => s.memo.wasApplied m hash = true
  | convert g source target => (g, source, target) ∈ s.attempted

instance Job.decidableIsDone (s : Search ν) : DecidablePred (IsDone s)
  | fire m hash => inferInstanceAs (Decidable (s.memo.wasApplied m hash = true))
  | convert g source target => inferInstanceAs (Decidable ((g, source, target) ∈ s.attempted))

/-- As a memo grows, no job is taken on again. -/
theorem Job.IsDone.of_growsTo {s t : Search ν} {job : Job} (hdone : job.IsDone s)
    (h : s.memo.GrowsTo t.memo) (hattempted : s.attempted ⊆ t.attempted) : job.IsDone t := by
  cases job with
  | fire m hash => exact h.wasApplied hdone
  | convert g source target => exact hattempted hdone

/-- How many iterations a job takes. -/
def Job.cost (conversions : Conversions) : Job → Nat
  | fire _ _ => 1
  | convert _ source target => (hops ((conversions.path source target).getD [])).length

/-- A job that there can be within limits. -/
def Job.IsWithin (lim : Limits) (registry : Registry ν) : Job → Prop
  | fire m rule => m < lim.maxMembers ∧ rule ∈ registry.rules.map Rule.hash
  | convert g source target => g < lim.maxGroups ∧ source ∈ lim.conventions ∧
      target ∈ lim.conventions

/-- There are finitely many of them. -/
theorem Job.finite_setOf_isWithin (lim : Limits) (registry : Registry ν) :
    {job : Job | job.IsWithin lim registry}.Finite := by
  have hfires := (Set.finite_lt_nat lim.maxMembers).image2 fire
    (List.finite_toSet (registry.rules.map Rule.hash))
  have hconverts := (Set.finite_lt_nat lim.maxGroups).image2 (fun g x => convert g x.1 x.2)
    (lim.finite_conventions.prod lim.finite_conventions)
  refine (hfires.union hconverts).subset ?_
  rintro (⟨m, rule⟩ | ⟨g, source, target⟩) hjob
  · exact .inl ⟨m, hjob.1, rule, hjob.2, rfl⟩
  · exact .inr ⟨g, hjob.1, (source, target), hjob.2, rfl⟩

/-- More iterations than this a search within limits cannot spend. -/
noncomputable def maxIterations (lim : Limits) (registry : Registry ν) : Nat :=
  ∑ job ∈ (Job.finite_setOf_isWithin lim registry).toFinset, job.cost registry.conversions

/-- How many iterations are left to spend. -/
noncomputable def work (lim : Limits) (registry : Registry ν) (s : Search ν) : Nat :=
  ∑ job ∈ (Job.finite_setOf_isWithin lim registry).toFinset with ¬ job.IsDone s,
    job.cost registry.conversions

section Work

variable {registry : Registry ν} {s t : Search ν} (h : s.memo.GrowsTo t.memo)
  (hattempted : s.attempted ⊆ t.attempted)

theorem work_le_maxIterations (s : Search ν) : work lim registry s ≤ maxIterations lim registry :=
  Finset.sum_le_sum_of_subset (Finset.filter_subset _ _)

/-- What is not done is left to do. -/
theorem cost_le_work {job : Job} (hwithin : job.IsWithin lim registry) (hleft : ¬ job.IsDone s) :
    job.cost registry.conversions ≤ work lim registry s :=
  Finset.single_le_sum (f := fun x : Job => x.cost registry.conversions) (fun _ _ => Nat.zero_le _)
    (Finset.mem_filter.mpr ⟨(Set.Finite.mem_toFinset _).mpr hwithin, hleft⟩)

include h hattempted

/-- What is done stays done, so nothing new is left. -/
theorem work_mono : work lim registry t ≤ work lim registry s := by
  refine Finset.sum_le_sum_of_subset fun job hjob => ?_
  obtain ⟨hwithin, hleft⟩ := Finset.mem_filter.mp hjob
  exact Finset.mem_filter.mpr ⟨hwithin, fun hdone => hleft (hdone.of_growsTo h hattempted)⟩

/-- When a job gets done, there is less left by what it takes. -/
theorem work_add_cost_le {job : Job} (hwithin : job.IsWithin lim registry)
    (hbefore : ¬ job.IsDone s) (hafter : job.IsDone t) :
    work lim registry t + job.cost registry.conversions ≤ work lim registry s := by
  classical
  unfold work
  have hmem : job ∈ (Job.finite_setOf_isWithin lim registry).toFinset.filter
      fun x => ¬ x.IsDone s :=
    Finset.mem_filter.mpr ⟨(Set.Finite.mem_toFinset _).mpr hwithin, hbefore⟩
  rw [← Finset.sum_erase_add _ _ hmem]
  refine Nat.add_le_add_right (Finset.sum_le_sum_of_subset fun x hx => ?_) _
  obtain ⟨hx, hleft⟩ := Finset.mem_filter.mp hx
  refine Finset.mem_erase.mpr ⟨?_, Finset.mem_filter.mpr ⟨hx, fun hdone =>
    hleft (hdone.of_growsTo h hattempted)⟩⟩
  rintro rfl
  exact hleft hafter

end Work

/-! ## Steps within limits -/

/-- A search within limits: its memo is, and so is what it has spent together with what is left to
spend; and no pass was cut short. -/
structure IsBounded (lim : Limits) (registry : Registry ν) (s : Search ν) : Prop where
  memo : ∃ den, s.memo.IsBounded lim den
  work : s.iterations + work lim registry s ≤ maxIterations lim registry
  goesOn : s.cutShort = false

/-- A search that has come from a memo, within limits. -/
def Reaches (lim : Limits) (registry : Registry ν) (before : Memo ν) (s : Search ν) : Prop :=
  s.IsBounded lim registry ∧ before.GrowsTo s.memo

variable {planner : Planner ν} {s t : Search ν} {before : Memo ν} {g : GroupId}

theorem IsBounded.reaches_self {registry : Registry ν} (h : s.IsBounded lim registry) :
    Reaches lim registry s.memo s := by
  obtain ⟨den, hmemo⟩ := h.memo
  exact ⟨h, hmemo.settled.growsTo_self⟩

/-- A search stays within limits when it pays for a job that gets done. -/
theorem IsBounded.of_job {registry : Registry ν} (h : s.IsBounded lim registry)
    (hmemo : ∃ den, t.memo.IsBounded lim den) (hgrows : s.memo.GrowsTo t.memo)
    (hattempted : s.attempted ⊆ t.attempted) (hgoesOn : t.cutShort = s.cutShort) {job : Job}
    (hwithin : job.IsWithin lim registry) (hbefore : ¬ job.IsDone s) (hafter : job.IsDone t)
    (hspent : t.iterations = s.iterations + job.cost registry.conversions) :
    Reaches lim registry s.memo t := by
  have hless := work_add_cost_le hgrows hattempted hwithin hbefore hafter
  refine ⟨⟨hmemo, ?_, hgoesOn.trans h.goesOn⟩, hgrows⟩
  calc t.iterations + Search.work lim registry t
      = s.iterations + (Search.work lim registry t + job.cost registry.conversions) := by omega
    _ ≤ s.iterations + Search.work lim registry s := Nat.add_le_add_left hless _
    _ ≤ maxIterations lim registry := h.work

/-! ## The rule pass -/

/-- A pass ends with what it has to say of the memo that its walk over the groups leaves. -/
theorem returns_of_walk {f : GroupId → Step ν Bool} {groups : List GroupId}
    (h : Returns (groups.allM f) s true t) (changed : Bool → Memo ν → Bool) :
    Returns (do
      let finished ← groups.allM f
      let after ← memoNow
      pure (changed finished after)) s (changed true t.memo) t := by
  refine h.bind (Returns.bind (returns_memoNow.mpr ⟨rfl, rfl⟩) ?_)
  exact returns_pure.mpr ⟨rfl, rfl⟩

section Rules

variable (hstandard : planner.registry.rules = Rule.standard)
  (hbudget : maxIterations lim planner.registry < planner.budget.iterations)

include hstandard hbudget

/-- Firing a rule that was not applied yet is never refused, and pays for itself. -/
theorem exists_fire_of_isMetBy (h : s.IsBounded lim planner.registry) {m : MemberId}
    (hm : m < s.memo.members.size) {rule : Rule ν} (hrule : rule ∈ planner.registry.rules)
    (happlied : ¬ s.memo.wasApplied m rule.hash = true)
    (hmet : rule.pattern.isMetBy s.memo (s.memo.member m) = true) :
    ∃ t, Returns (fire planner rule m) s true t ∧ Reaches lim planner.registry s.memo t := by
  obtain ⟨den, hmemo⟩ := h.memo
  have hfits := (hmemo.settled.member m hm).1
  have hjob : Job.IsWithin lim planner.registry (.fire m rule.hash) :=
    ⟨Nat.lt_of_lt_of_le hm (Nat.le_trans (Nat.le_add_right _ _) hmemo.members),
      List.mem_map_of_mem hrule⟩
  have hsuits : ∀ p ∈ rule.propose planner.catalog s.memo (s.memo.member m),
      p.Suits lim den s.memo.groups.size (den (s.memo.member m).group) := fun p hp =>
    hmemo.suits_of_suggests hm (Rule.suggests_of_mem_standard (hstandard ▸ hrule) hmet
      hfits.length_children hp)
  -- the proposals are made for the memo as it is now, and inserted when the rule was marked
  obtain ⟨after, den', hloop, hexpands⟩ := exists_insertAll
    (s := { s with iterations := s.iterations + 1, memo := s.memo.markApplied m rule.hash })
    (hmemo.markApplied m rule.hash) (hfits.group_lt hmemo.settled.led) hsuits rule.name
  have hgrows := (hmemo.settled.growsTo_markApplied m rule.hash).trans hexpands.grows
  have hdone : after.wasApplied m rule.hash = true := by
    refine hexpands.grows.wasApplied ?_
    rw [wasApplied_markApplied _ _ _ _ _ hm]
    simp
  refine ⟨{ s with iterations := s.iterations + 1, memo := after }, ?_,
    h.of_job ⟨den', hexpands.bounded⟩ hgrows (List.Subset.refl _) rfl hjob happlied hdone rfl⟩
  have hspent := h.work
  unfold fire
  refine Returns.bind (returns_memoNow.mpr ⟨rfl, rfl⟩) ?_
  rw [if_neg happlied, if_neg (by rw [hmet]; exact Bool.false_ne_true)]
  refine Returns.bind (returns_spend_true (by omega)) ?_
  refine Returns.bind (a := ()) (returns_modifyMemo.mpr rfl) (hloop.bind ?_)
  exact returns_pure.mpr ⟨rfl, rfl⟩

/-- A rule goes on, whether it is fired or not. -/
theorem exists_fire (h : s.IsBounded lim planner.registry) {m : MemberId}
    (hm : m < s.memo.members.size) {rule : Rule ν} (hrule : rule ∈ planner.registry.rules) :
    ∃ t, Returns (fire planner rule m) s true t ∧ Reaches lim planner.registry s.memo t := by
  by_cases happlied : s.memo.wasApplied m rule.hash = true
  · refine ⟨s, Returns.bind (returns_memoNow.mpr ⟨rfl, rfl⟩) ?_, h.reaches_self⟩
    rw [if_pos happlied]
    exact returns_pure.mpr ⟨rfl, rfl⟩
  · by_cases hmet : rule.pattern.isMetBy s.memo (s.memo.member m) = true
    · exact exists_fire_of_isMetBy hstandard hbudget h hm hrule happlied hmet
    · refine ⟨s, Returns.bind (returns_memoNow.mpr ⟨rfl, rfl⟩) ?_, h.reaches_self⟩
      rw [if_neg happlied, if_pos (by rw [Bool.not_eq_true] at hmet; rw [hmet]; rfl)]
      exact returns_pure.mpr ⟨rfl, rfl⟩

/-- So do all rules for all members of a group. -/
theorem exists_fireGroup (h : Reaches lim planner.registry before s) (g : GroupId) :
    ∃ t, Returns (fireGroup planner g) s true t ∧ Reaches lim planner.registry before t := by
  obtain ⟨hs, hgrows⟩ := h
  obtain ⟨den, hmemo⟩ := hs.memo
  obtain ⟨t, hwalk, ht, hmore⟩ := exists_returns_allM (I := Reaches lim planner.registry s.memo)
    (f := fun m => planner.registry.rules.allM fun rule => fire planner rule m)
    (s.memo.group g).members (fun m hm u hu =>
      exists_returns_allM planner.registry.rules (fun rule hrule u hu => by
        have hlt := hu.2.lt (hmemo.settled.lt_of_mem_group hm)
        obtain ⟨t, hfire, ht, hmore⟩ := exists_fire hstandard hbudget hu.1 hlt hrule
        exact ⟨t, hfire, ht, hu.2.trans hmore⟩) hu) hs.reaches_self
  exact ⟨t, Returns.bind (returns_memoNow.mpr ⟨rfl, rfl⟩) hwalk, ht, hgrows.trans hmore⟩

/-- The rule pass goes on to its end. -/
theorem exists_fireAll (h : s.IsBounded lim planner.registry) :
    ∃ b t, Returns (fireAll planner) s b t ∧ t.IsBounded lim planner.registry := by
  obtain ⟨t, hwalk, ht, -⟩ := exists_returns_allM (I := Reaches lim planner.registry s.memo)
    (f := fireGroup planner) s.memo.liveGroups (fun g _ u hu =>
      exists_fireGroup hstandard hbudget hu g) h.reaches_self
  exact ⟨_, t, Returns.bind (returns_memoNow.mpr ⟨rfl, rfl⟩) (returns_of_walk hwalk fun finished after =>
    !finished || decide (s.memo.memberCount < after.memberCount) ||
      decide (s.memo.merges < after.merges)), ht⟩

end Rules

/-! ## The conversion pass -/

section Conversions

variable (hconversions : ∀ hop ∈ planner.registry.conversions,
    hop.1 ∈ lim.conventions ∧ hop.2 ∈ lim.conventions)
  (hbudget : maxIterations lim planner.registry < planner.budget.iterations)

include hconversions

/-- The converters of some hops are inserted, as long as the budget has an iteration for each. -/
theorem exists_insertHops {den : GroupId → Shape} (h : s.memo.IsBounded lim den)
    (hg : g < s.memo.groups.size) {chain : List (Convention × Convention)}
    (hchain : ∀ hop ∈ chain, hop ∈ planner.registry.conversions)
    (hleft : s.iterations + chain.length ≤ planner.budget.iterations) :
    ∃ after, Returns (chain.allM (insertHop planner true g)) s true
        { s with memo := after, iterations := s.iterations + chain.length } ∧
      s.memo.Expands lim den den after := by
  induction chain generalizing s with
  | nil => exact ⟨s.memo, returns_pure.mpr ⟨rfl, rfl⟩, h.expands_self⟩
  | cons hop rest ih =>
      obtain ⟨hhop, hrest⟩ := List.forall_mem_cons.mp hchain
      obtain ⟨hsource, htarget⟩ := hconversions hop hhop
      rw [List.length_cons] at hleft
      have hpermits : lim.Permits (.converter hop.1) hop.2 [g] [hop.1] :=
        ⟨hsource, OperatorKind.noConfusion, htarget, List.forall_mem_singleton.mpr hsource⟩
      obtain ⟨m, mid, hadd, hfirst⟩ := h.exists_addTo (List.forall_mem_singleton.mpr hg) hg hpermits rfl
        .converter converterOrigin
      obtain ⟨after, hwalk, hmore⟩ := ih (s := { s with memo := mid, iterations := s.iterations + 1 })
        hfirst.bounded (Nat.lt_of_lt_of_le hg hfirst.grows.groups) hrest (by dsimp only; omega)
      refine ⟨after, ?_, hfirst.trans hmore⟩
      have hstep : Returns (insertHop planner true g hop) s true
          { s with memo := mid, iterations := s.iterations + 1 } := by
        unfold insertHop
        rw [if_pos rfl]
        refine Returns.bind (returns_spend_true (by omega)) ?_
        exact Returns.bind (returns_edit.mpr ⟨mid, hadd, rfl⟩) (returns_pure.mpr ⟨rfl, rfl⟩)
      rw [List.length_cons, Nat.add_comm rest.length, ← Nat.add_assoc]
      exact Returns.bind hstep hwalk

include hbudget

/-- Trying a conversion that was not tried yet is never refused, and pays for itself. -/
theorem exists_insertChain (h : s.IsBounded lim planner.registry) (hg : g < s.memo.groups.size)
    {source target : Convention} (hsource : source ∈ lim.conventions) {path : List Convention}
    (hnew : (g, source, target) ∉ s.attempted)
    (hpath : planner.registry.conversions.path source target = some path) :
    ∃ after, Returns ((hops path).allM (insertHop planner true g)) s true
        { s with memo := after, iterations := s.iterations + (hops path).length } ∧
      Reaches lim planner.registry s.memo { s with
        memo := after
        iterations := s.iterations + (hops path).length
        attempted := (g, source, target) :: s.attempted } := by
  obtain ⟨den, hmemo⟩ := h.memo
  have hknown : ∀ hop ∈ hops path, hop ∈ planner.registry.conversions := fun hop hhop =>
    (Conversions.mem_of_mem_hops_path hpath hhop).1
  have htarget : target ∈ lim.conventions := Conversions.carries_path
    (P := fun c => c ∈ lim.conventions) hpath hsource fun hop hhop _ =>
      (hconversions hop (hknown hop hhop)).2
  have hjob : Job.IsWithin lim planner.registry (.convert g source target) :=
    ⟨Nat.lt_of_lt_of_le hg (Nat.le_trans (Nat.le_add_right _ _) hmemo.groups), hsource, htarget⟩
  have hcost : Job.cost planner.registry.conversions (.convert g source target) =
      (hops path).length := by
    show (hops ((planner.registry.conversions.path source target).getD [])).length = _
    rw [hpath]
    rfl
  have hneeded := cost_le_work (s := s) hjob hnew
  have hspent := h.work
  obtain ⟨after, hwalk, hexpands⟩ := exists_insertHops hconversions hmemo hg hknown (by omega)
  refine ⟨after, hwalk, h.of_job ⟨den, hexpands.bounded⟩ hexpands.grows
    (List.subset_cons_self _ _) rfl hjob hnew List.mem_cons_self ?_⟩
  exact congrArg (s.iterations + ·) hcost.symm

/-- A conversion goes on, whether it is tried or not. -/
theorem exists_convert (h : s.IsBounded lim planner.registry) (hg : g < s.memo.groups.size)
    {source : Convention} (hsource : source ∈ lim.conventions) (target : Convention) :
    ∃ t, Returns (convert planner true g source target) s true t ∧
      Reaches lim planner.registry s.memo t := by
  unfold convert
  by_cases hskip : (source = target || s.attempted.contains (g, source, target)) = true
  · refine ⟨s, Returns.bind (returns_get.mpr ⟨rfl, rfl⟩) ?_, h.reaches_self⟩
    rw [if_pos hskip]
    exact returns_pure.mpr ⟨rfl, rfl⟩
  · rcases hpath : planner.registry.conversions.path source target with _ | path
    · -- nothing is spent where no chain leads to the target
      obtain ⟨den, hmemo⟩ := h.memo
      refine ⟨{ s with attempted := (g, source, target) :: s.attempted },
        Returns.bind (returns_get.mpr ⟨rfl, rfl⟩) ?_, ⟨⟨den, hmemo⟩, ?_, h.goesOn⟩,
        hmemo.settled.growsTo_self⟩
      · rw [if_neg hskip]
        exact Returns.bind (a := ()) (returns_modify.mpr rfl) (returns_pure.mpr ⟨rfl, rfl⟩)
      · have hmono : work lim planner.registry
            { s with attempted := (g, source, target) :: s.attempted } ≤
              work lim planner.registry s :=
          work_mono hmemo.settled.growsTo_self (List.subset_cons_self _ _)
        exact Nat.le_trans (Nat.add_le_add_left hmono _) h.work
    · have hnew : (g, source, target) ∉ s.attempted := fun hold =>
        hskip (Bool.or_eq_true_iff.mpr (Or.inr (List.contains_iff_mem.mpr hold)))
      obtain ⟨after, hwalk, hreaches⟩ :=
        exists_insertChain hconversions hbudget h hg hsource hnew hpath
      refine ⟨_, Returns.bind (returns_get.mpr ⟨rfl, rfl⟩) ?_, hreaches⟩
      rw [if_neg hskip]
      exact Returns.bind hwalk (Returns.bind (a := ()) (returns_modify.mpr rfl)
        (returns_pure.mpr ⟨rfl, rfl⟩))

/-- So do all conversions of a group. -/
theorem exists_convertGroup (h : Reaches lim planner.registry before s)
    (hg : g < before.groups.size) :
    ∃ t, Returns (convertGroup planner true g) s true t ∧ Reaches lim planner.registry before t := by
  obtain ⟨hs, hgrows⟩ := h
  obtain ⟨den, hmemo⟩ := hs.memo
  have hlead := hmemo.settled.led.leader_lt (Nat.lt_of_lt_of_le hg hgrows.groups)
  have hpresent : ∀ source ∈ presentConventions s.memo (s.memo.leader g), source ∈ lim.conventions := by
    intro source hsource
    obtain ⟨m, hm, rfl, -⟩ := mem_presentConventions.mp hsource
    exact (hmemo.permits m (hmemo.settled.lt_of_mem_group hm)).convention
  obtain ⟨t, hwalk, ht, hmore⟩ := exists_returns_allM (I := Reaches lim planner.registry s.memo)
    (f := fun target => (presentConventions s.memo (s.memo.leader g)).allM fun source =>
      convert planner true (s.memo.leader g) source target)
    ((s.memo.group (s.memo.leader g)).required.filter fun c => !c.isLogical)
    (fun target _ u hu => exists_returns_allM _ (fun source hsource u hu => by
      obtain ⟨t, hconvert, ht, hmore⟩ := exists_convert hconversions hbudget hu.1
        (Nat.lt_of_lt_of_le hlead hu.2.groups) (hpresent source hsource) target
      exact ⟨t, hconvert, ht, hu.2.trans hmore⟩) hu) hs.reaches_self
  exact ⟨t, Returns.bind (returns_memoNow.mpr ⟨rfl, rfl⟩) hwalk, ht, hgrows.trans hmore⟩

/-- The conversion pass goes on to its end. -/
theorem exists_convertAll (h : s.IsBounded lim planner.registry) :
    ∃ b t, Returns (convertAll planner true) s b t ∧ t.IsBounded lim planner.registry := by
  obtain ⟨t, hwalk, ht, -⟩ := exists_returns_allM (I := Reaches lim planner.registry s.memo)
    (f := convertGroup planner true) s.memo.liveGroups (fun g hg u hu =>
      exists_convertGroup hconversions hbudget hu (List.mem_range.mp (List.mem_filter.mp hg).1))
    h.reaches_self
  exact ⟨_, t, Returns.bind (returns_memoNow.mpr ⟨rfl, rfl⟩) (returns_of_walk hwalk fun finished after =>
    !finished || decide (s.memo.memberCount < after.memberCount)), ht⟩

end Conversions

end Search

end QueryPlanner
