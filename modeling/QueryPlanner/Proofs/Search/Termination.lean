/-
# Searches end

A search repeats rounds until one of them is the last, a round goes over all members and all groups,
whatever is added may merge groups until no two are the same any more, and winners are relaxed until
none changes. None of this goes on for ever, whatever the rules propose, however conversions lead in
circles, and whatever numbers costs and estimates are; and the budget is kept all the time.

* `Memo.Built.modifyGroup` : the notes of a search are among what a memo may be built by;
* `isKept_built` : all that a search does to its memo is to call it on groups that exist;
* `Ends` : what comes to an end, each loop with what a loop without a bound ends with;
* `optimize_ends` : from every state that a search within its budget can be in, all of this ends.
-/
import QueryPlanner.Proofs.Conversions
import QueryPlanner.Proofs.Plan.Integrity
import QueryPlanner.Proofs.Registry
import QueryPlanner.Proofs.Search.Budget
import QueryPlanner.Proofs.Search.Potential
import QueryPlanner.Proofs.Search.Statistics

namespace QueryPlanner

variable {ν : Type}

/-! ## Notes -/

namespace Memo

variable {memo : Memo ν}

/-- A change of a group that leaves all but its notes alone is to write new ones. -/
theorem modifyGroup_eq_annotate (memo : Memo ν) (g : GroupId) {f : Group ν → Group ν}
    (hf : ∀ x, f x = { x with
      required := (f x).required, winners := (f x).winners, statistics := (f x).statistics }) :
    memo.modifyGroup g f = memo.annotate g (f (memo.group g)).required (f (memo.group g)).winners
      (f (memo.group g)).statistics := by
  unfold annotate modifyGroup
  congr 1
  refine Array.ext_getElem? fun i => ?_
  rw [Array.getElem?_modify, Array.getElem?_modify]
  split
  · next hi =>
      subst hi
      rcases hread : memo.groups[memo.leader g]? with _ | x
      · rfl
      · have hgroup : memo.group g = x := by
          unfold group
          rw [hread]
          rfl
        rw [hgroup]
        exact congrArg some (hf x)
  · rfl

/-- So such a change keeps a memo built. -/
theorem Built.modifyGroup (h : memo.Built) (g : GroupId) {f : Group ν → Group ν}
    (hf : ∀ x, f x = { x with
      required := (f x).required, winners := (f x).winners, statistics := (f x).statistics }) :
    (memo.modifyGroup g f).Built := by
  rw [modifyGroup_eq_annotate memo g hf]
  exact h.annotate g _ _ _

theorem Built.require (h : memo.Built) (g : GroupId) (c : Convention) : (memo.require g c).Built := by
  refine h.modifyGroup g fun x => ?_
  unfold Group.require
  split
  · rfl
  · rfl

end Memo

namespace Search

open Memo

/-! ## Searches call -/

/-- Memos that are built by calls stay so, whatever is added to groups that exist. -/
theorem isKeptByCalls_built : IsKeptByCalls (fun _ _ _ => True) (Built : Memo ν → Prop) where
  logical _ _ := trivial
  settled h := h.settled.1
  addLogical op children h hlt := by
    have hcall := h.call (.addLogical op children) hlt
    unfold Call.run at hcall
    rw [run_bind] at hcall
    rcases hrun : (Memo.addLogical op children).run.run _ with ⟨e | g, after⟩
    · rw [hrun] at hcall
      exact hcall
    · rw [hrun] at hcall
      exact hcall
  addTo {memo g op c children inputs} origin h hg hlt _ := by
    have hcall := h.call (.addTo g op c children inputs origin) (List.forall_mem_cons.mpr ⟨hg, hlt⟩)
    unfold Call.run at hcall
    rw [run_bind] at hcall
    rcases hrun : (Memo.addTo g op c children inputs origin).run.run memo with ⟨e | m, after⟩
    · rw [hrun] at hcall
      exact hcall
    · rw [hrun] at hcall
      exact hcall
  require g c h := h.require g c
  markApplied m hash h := h.markApplied m hash

variable [Quantity ν] {planner : Planner ν}

/-- Winners and statistics are notes. -/
theorem keeps_built_findWinners (planner : Planner ν) :
    Keeps (fun s => s.memo.Built) (findWinners planner) := by
  refine keeps_findWinners (fun s g m x costs _ _ h => ?_) fun s g h => ?_
  · exact h.modifyGroup g fun _ => rfl
  · exact keeps_deriveStatistics (fun memo g x h => h.modifyGroup g fun _ => rfl) planner.catalog _ g
      _ (h.modifyGroup g fun _ => rfl)

/-- A rule whose proposals, of whatever kind, name groups of the memo that it looks at. -/
def NamesGroups (catalog : Catalog ν) (rule : Rule ν) : Prop :=
  ∀ memo : Memo ν, memo.Built → ∀ m < memo.members.size,
    rule.pattern.isMetBy memo (memo.member m) = true →
      ∀ p ∈ rule.propose catalog memo (memo.member m), ∀ g ∈ p.groups, g < memo.groups.size

omit [Quantity ν] in
/-- Rules name groups that exist if they are the standard ones. -/
theorem namesGroups_of_eq_standard {catalog : Catalog ν} {rules : List (Rule ν)}
    (h : rules = Rule.standard) : ∀ rule ∈ rules, NamesGroups catalog rule :=
  fun rule hrule memo hmemo m hm hmet p hp =>
    (Rule.isRegular_of_eq_standard h rule hrule memo hmemo.settled.1 m hm hmet p hp).groups_lt

/-- All that a search does to its memo is to make calls on groups that exist, and to take notes. -/
theorem isKept_built (hrules : ∀ rule ∈ planner.registry.rules, NamesGroups planner.catalog rule) :
    IsKept planner Built := by
  refine isKeptByCalls_built.isKept ?_ (keeps_built_findWinners planner) fun _ _ _ => trivial
  intro rule hrule memo hmemo m hm hmet p hp
  refine ⟨hrules rule hrule memo hmemo m hm hmet p hp, ?_⟩
  cases p with
  | physical op c inputs => exact fun _ => trivial
  | _ => exact trivial

/-! ## What comes to an end -/

/-- A state that a search within its budget can be in: calls made its memo what it is, each of which
came to an end, and no more iterations were spent than there are. -/
structure InOrder (planner : Planner ν) (s : Search ν) : Prop where
  built : s.memo.Built
  within : s.iterations ≤ planner.budget.iterations

/-- Everything that a search repeats comes to an end, from some state on: the rounds, the two passes
of a round and what they spend iterations on, the merges that come with it, the search for a chain of
conversions, the relaxation of winners, and the descent to the groups that statistics are derived
from. Where something is repeated, it ends with what it ends with when nothing counts how often. -/
structure Ends (planner : Planner ν) (root : GroupId) (goal : Goal ν) (s : Search ν) : Prop where
  rounds : ∃ r t, Loop (round planner root goal) s r t ∧ InOrder planner t ∧
    (expand planner root goal (planner.budget.iterations - s.iterations + 1)).run.run s = (r, t)
  rule : ∀ rule ∈ planner.registry.rules, ∀ g, ∀ m ∈ (s.memo.group g).members,
    InOrder planner ((fire planner rule m).run.run s).2
  rulePass : InOrder planner ((fireAll planner).run.run s).2
  hop : ∀ hop ∈ planner.registry.conversions, hop.1 ≠ hop.2 → ∀ g < s.memo.groups.size, ∀ bounded,
    InOrder planner ((insertHop planner bounded g hop).run.run s).2
  conversionPass : ∀ bounded, InOrder planner ((convertAll planner bounded).run.run s).2
  merges : ∀ a b : GroupId, a < s.memo.groups.size → b < s.memo.groups.size → ∀ origin,
    (∃ e, (merge a b origin).run.run s.memo = (.error e, s.memo)) ∨
      ∃ between after, (union a b origin).run.run s.memo = (.ok (), between) ∧
        RebuildsTo origin between after ∧ (merge a b origin).run.run s.memo = (.ok (), after)
  paths : ∀ source target : Convention, source ≠ target →
    planner.registry.conversions.ComesTo source target
      (planner.registry.conversions.path source target)
  relaxation : ∀ groups, ∃ r t, Loop (relaxation planner groups) s r t ∧
    (settle planner groups (settleFuel s.memo)).run.run s = (r, t)
  statistics : ∀ g, Derives planner.catalog g s.memo (priceGroup planner.catalog s.memo g)
  winners : InOrder planner ((findWinners planner).run.run s).2

variable {root : GroupId} {goal : Goal ν} {s : Search ν}

omit [Quantity ν] in
theorem InOrder.merges (h : InOrder planner s) {a b : GroupId} (ha : a < s.memo.groups.size)
    (hb : b < s.memo.groups.size) (origin : String) :
    (∃ e, (merge a b origin).run.run s.memo = (.error e, s.memo)) ∨
      ∃ between after, (union a b origin).run.run s.memo = (.ok (), between) ∧
        RebuildsTo origin between after ∧ (merge a b origin).run.run s.memo = (.ok (), after) := by
  obtain ⟨hsettled, -⟩ := h.built.settled
  rcases hsettled.merge_cases ha hb origin with ⟨_, _, hrun⟩ | ⟨after, hrun, -, -, hmergeOf⟩
  · exact Or.inl ⟨_, hrun⟩
  · obtain ⟨between, hunion, hrebuilds⟩ := hmergeOf.ends
    exact Or.inr ⟨between, after, hunion, hrebuilds, hrun⟩

section Rules

variable (hrules : ∀ rule ∈ planner.registry.rules, NamesGroups planner.catalog rule)

include hrules

theorem InOrder.fire (h : InOrder planner s) {rule : Rule ν} (hrule : rule ∈ planner.registry.rules)
    {g : GroupId} {m : MemberId} (hm : m ∈ (s.memo.group g).members) :
    InOrder planner ((fire planner rule m).run.run s).2 where
  built := (isKept_built hrules).fire rule hrule s.memo g m h.built hm s h.built (Nat.le_refl _)
  within := (isFrugal_fire planner rule m s).1.within h.within

theorem InOrder.insertHop (h : InOrder planner s) {hop : Convention × Convention}
    (hhop : hop ∈ planner.registry.conversions ∧ hop.1 ≠ hop.2) {g : GroupId}
    (hg : g < s.memo.groups.size) (bounded : Bool) :
    InOrder planner ((insertHop planner bounded g hop).run.run s).2 := by
  refine ⟨((isKept_built hrules).insertHop hg hhop bounded s ⟨h.built, Nat.le_refl _⟩).1, ?_⟩
  cases bounded with
  | true => exact (isFrugal_insertHop planner g hop s).1.within h.within
  | false => exact keeps_le_of_keeps_iterations (keeps_iterations_insertHop planner g hop) _ s h.within

theorem InOrder.convertAll (h : InOrder planner s) (bounded : Bool) :
    InOrder planner ((convertAll planner bounded).run.run s).2 := by
  refine ⟨(isKept_built hrules).convertAll bounded s h.built, ?_⟩
  cases bounded with
  | true => exact (spends_convertAll planner s).within h.within
  | false => exact keeps_le_of_keeps_iterations (keeps_iterations_convertAll planner) _ s h.within

theorem InOrder.ends [RankedQuantity ν] (h : InOrder planner s) : Ends planner root goal s where
  rounds := by
    obtain ⟨r, t, hloop, hrun⟩ := exists_loop_expand planner root goal s
    have hbuilt := (isKept_built hrules).expand root goal
      (planner.budget.iterations - s.iterations + 1) s h.built
    rw [hrun] at hbuilt
    exact ⟨r, t, hloop, ⟨hbuilt, hloop.of_keeps (keeps_budget_round planner root goal) h.within⟩,
      hrun⟩
  rule _ hrule _ _ hm := h.fire hrules hrule hm
  rulePass := ⟨(isKept_built hrules).fireAll s h.built, (spends_fireAll planner s).within h.within⟩
  hop _ hhop hne _ hg bounded := h.insertHop hrules ⟨hhop, hne⟩ hg bounded
  conversionPass := h.convertAll hrules
  merges _ _ ha hb origin := h.merges ha hb origin
  paths _ _ hne := Conversions.comesTo_path _ hne
  relaxation groups := exists_loop_settle planner groups h.built.settled.1
  statistics g := derives_priceGroup planner.catalog s.memo g
  winners := ⟨keeps_built_findWinners planner s h.built,
    keeps_le_of_keeps_iterations (keeps_iterations_findWinners planner) _ s h.within⟩

end Rules

/-- A search ends within its budget. It starts in a state, and goes from there to another one, from
which everything that it repeats comes to an end: this holds for every memo, whatever rules that name
existing groups propose, for all conversions, costs, estimates, goals and budgets. -/
theorem optimize_ends {planner : Planner Float}
    (hrules : ∀ rule ∈ planner.registry.rules, NamesGroups planner.catalog rule) (root : GroupId)
    (goal : Goal Float) {memo : Memo Float} (hmemo : memo.Built) :
    InOrder planner { memo := memo } ∧
      InOrder planner ((optimize planner root goal).run.run { memo := memo }).2 ∧
      ∀ s, InOrder planner s → Ends planner root goal s := by
  have hstart : InOrder planner { memo := memo } := ⟨hmemo, Nat.zero_le _⟩
  refine ⟨hstart, ⟨?_, ?_⟩, fun s hs => hs.ends hrules⟩
  · exact (isKept_built hrules).optimize root goal _ hmemo
  · exact keeps_budget_optimize planner root goal _ hstart.within

/-- The standard rules name existing groups, and their conversions lead in circles. -/
theorem optimize_ends_firstRows :
    firstRows.Built ∧
      InOrder standardPlanner ((optimize standardPlanner 3 ⟨.compiled, none⟩).run.run
        { memo := firstRows }).2 ∧
      Ends standardPlanner 3 ⟨.compiled, none⟩ { memo := firstRows } := by
  have hrules : ∀ rule ∈ standardPlanner.registry.rules, NamesGroups standardPlanner.catalog rule :=
    namesGroups_of_eq_standard rfl
  obtain ⟨hstart, hend, hends⟩ := optimize_ends hrules 3 ⟨.compiled, none⟩ built_firstRows
  exact ⟨built_firstRows, hend, hends _ hstart⟩

end Search

end QueryPlanner
