/-
# Plans come from saturated memos

A plan that does not count as truncated was found in a memo in which nothing is left to do: every
rule was fired for every member that has its shape, and every group has the converters on the way
from each convention that it has to each one that is needed of it. The passes look at a memo that
grows while they go on, so this takes a round in which there was no new member and no merge; what
it requires of groups on the way comes before the conversions.

* `IsSaturated` : nothing is left to do;
* `isSaturated_of_returns_optimize` : a search that no budget cut short leaves a saturated memo.
-/
import QueryPlanner.Proofs.Registry
import QueryPlanner.Proofs.Search.Rounds

namespace QueryPlanner

open Memo

namespace Search

variable {ν : Type} [Quantity ν] {planner : Planner ν}

/-- In the last state `t` of a search that started in `s`, every rule was fired for every member of
its shape, and every group has the converter of every hop from a convention that it has members in
to one that is required of it, reading the group itself. -/
structure IsSaturated (planner : Planner ν) (s t : Search ν) : Prop where
  fired : ∀ g ∈ t.memo.liveGroups, ∀ m ∈ (t.memo.group g).members,
    ∀ rule ∈ planner.registry.rules, rule.pattern.isMetBy t.memo (t.memo.member m) = true →
      WasFired planner rule m s t
  converted : ∀ g ∈ t.memo.liveGroups, ∀ target ∈ (t.memo.group g).required, target ≠ .logical →
    ∀ m ∈ (t.memo.group g).members, ∀ source, (t.memo.member m).convention = source →
      source ≠ .logical → source ≠ target →
        ∀ path, planner.registry.conversions.path source target = some path →
          ∀ hop ∈ hops path, ∃ i ∈ (t.memo.group g).members,
            (t.memo.member i).op = .converter hop.1 ∧ (t.memo.member i).convention = hop.2 ∧
            (t.memo.member i).inputs = [hop.1] ∧ (t.memo.member i).children = [g]

omit [Quantity ν] in
/-- In a fixpoint that was reached by moves, the rules that count as applied were fired, and the
chains that are there consist of members. -/
theorem IsFixpoint.isSaturated
    (hrules : ∀ rule ∈ planner.registry.rules, rule.IsRegular planner.catalog)
    (hhashes : (planner.registry.rules.map Rule.hash).Nodup) {s t : Search ν}
    (hs : IsRunning planner s) (hnew : ∀ m hash, s.memo.wasApplied m hash = false)
    (hpasses : Passes planner s t) (hfix : IsFixpoint planner t.memo) : IsSaturated planner s t := by
  obtain ⟨ht, -⟩ := hs.passes hrules hpasses
  constructor
  · intro g hg m hm rule hrule hmet
    exact fired_of_passes hrules hhashes hs hpasses hrule (hnew m rule.hash)
      (hfix.applied g hg m hm rule hrule hmet)
  · intro g hg target htarget hphysical m hm source hsource hlogical _ path hpath hop hhop
    have hlt : g < t.memo.groups.size := List.mem_range.mp (List.mem_filter.mp hg).1
    subst hsource
    have hhas := hfix.connected g hg target htarget (decide_eq_false hphysical) m hm
      (decide_eq_false hlogical) path hpath hop hhop
    obtain ⟨i, hi, hop', hconvention, hinputs, hchildren⟩ := (ht.settled.hasConverter_iff hlt).mp hhas
    rw [ht.settled.led.leader_of_mem_liveGroups hg] at hchildren
    exact ⟨i, hi, hop', hconvention, hinputs, hchildren⟩

omit [Quantity ν] in
/-- In a fixpoint, what a rule proposes for a member of its shape is in the group of the member, as it
was proposed at some time. -/
theorem IsFixpoint.isIn (hrules : ∀ rule ∈ planner.registry.rules, rule.IsRegular planner.catalog)
    (hhashes : (planner.registry.rules.map Rule.hash).Nodup) (hs : IsRunning planner s)
    (hnew : ∀ m hash, s.memo.wasApplied m hash = false) (hpasses : Passes planner s u)
    (hfix : IsFixpoint planner u.memo) {m : MemberId} (hm : m < u.memo.members.size)
    {rule : Rule ν} (hrule : rule ∈ planner.registry.rules)
    (hmet : rule.pattern.isMetBy u.memo (u.memo.member m) = true) :
    ∃ earlier : Memo ν, s.memo.GrowsTo earlier ∧ earlier.GrowsTo u.memo ∧
      m < earlier.members.size ∧ rule.pattern.isMetBy earlier (earlier.member m) = true ∧
      ∀ p ∈ rule.propose planner.catalog earlier (earlier.member m),
        p.IsIn u.memo (u.memo.member m).group := by
  obtain ⟨hu, -⟩ := hs.passes hrules hpasses
  obtain ⟨hfits, -⟩ := hu.settled.member m hm
  have hself : u.memo.leader (u.memo.member m).group = (u.memo.member m).group :=
    leader_of_self hfits.group_live
  have hg := hfits.group_lt hu.settled.led
  have hlive : (u.memo.member m).group ∈ u.memo.liveGroups := by
    rw [← hself]
    exact hu.settled.led.leader_mem_liveGroups hg
  have hlisted := hu.settled.mem_group_iff.mpr ⟨hg, hm, hself.symm⟩
  have happlied := hfix.applied _ hlive m hlisted rule hrule hmet
  have hfired := fired_of_passes hrules hhashes hs hpasses hrule (hnew m rule.hash) happlied
  obtain ⟨earlier, hbefore, hafter, hlt, hmet', hall⟩ := hfired.exists_isIn hrules hs hrule
  refine ⟨earlier, hbefore, hafter, hlt, hmet', fun p hp => (hall p hp).congr ?_⟩
  rw [hafter.group_eq hlt, hu.settled.led.leader_leader]

/-- A search without a ceiling that returns a plan which does not count as truncated leaves a
saturated memo: for a memo of logical members, any rules of different hashes that name groups which
exist and propose no converters, any convertlets and costs, and any budget. -/
theorem isSaturated_of_returns_optimize {memo : Memo ν}
    (hrules : ∀ rule ∈ planner.registry.rules, rule.IsRegular planner.catalog)
    (hhashes : (planner.registry.rules.map Rule.hash).Nodup) (hmemo : LogicallyBuilt memo)
    (root : GroupId) (c : Convention) {plan : Plan ν} {t : Search ν}
    (h : Returns (optimize planner root ⟨c, none⟩) { memo := memo } plan t)
    (hplan : plan.truncated = false) : IsSaturated planner { memo := memo } t := by
  obtain ⟨-, hnew, -⟩ := hmemo.entries
  have hstart := hmemo.isRunning planner
  obtain ⟨exhausted, u, w, hexpand, hsettle, hexhausted⟩ := optimize_parts h
  have hrequire : Move planner { memo := memo } { memo := memo.require root c } := .require root c
  obtain ⟨hrequired, -⟩ := hstart.move hrules hrequire
  obtain ⟨hexpanded, hended⟩ := returns_expand hrules hrequired hexpand
  obtain ⟨hu, -⟩ := hrequired.passes hrules hexpanded
  obtain ⟨hsettled, hfix⟩ := returns_settleGoal_moves hrules hu hsettle
  rcases hended (hexhausted hplan) with hfixpoint | ⟨hceiling, -⟩
  · exact (hfix hfixpoint).isSaturated hrules hhashes hstart hnew
      ((Relation.ReflTransGen.single hrequire).trans (hexpanded.trans hsettled))
  · cases hceiling

/-- In the example of a foreign table, the search for generated code was not cut short, and left a
saturated memo. -/
theorem isSaturated_of_returns_optimize_foreignOnes :
    ∃ plan t, Returns (optimize standardPlanner 1 ⟨.compiled, none⟩) { memo := foreignOnes } plan t ∧
      plan.truncated = false ∧ IsSaturated standardPlanner { memo := foreignOnes } t := by
  have htruncated : ((optimize standardPlanner 1 ⟨.compiled, none⟩).run.run
      { memo := foreignOnes }).1.toOption.map Plan.truncated = some false := by
    decide +kernel
  obtain ⟨plan, hplan, hread⟩ := Option.map_eq_some_iff.mp htruncated
  have hreturned := returns_of_toOption hplan
  refine ⟨plan, _, hreturned, hread, ?_⟩
  exact isSaturated_of_returns_optimize (fun rule hrule => Rule.isRegular_of_mem_standard hrule)
    Rule.nodup_hash_standard logicallyBuilt_foreignOnes 1 .compiled hreturned hread

end Search

end QueryPlanner
