/-
# A search that does not end

Two filters are merged to one with the conjuncts of both, which is added to the memo even where
nothing is gained. So a fixpoint has filters that read no filters: among all of them, the one with
the most conjuncts does. A filter that only says TRUE, over an inner join on TRUE, is merged with
its input when it is pushed into the join, and then all filters read filters: no budget is enough
for the search to come to a fixpoint.

* `IsFixpoint.exists_lowest_filter` : some filter reads no filters;
* `eq_true_of_returns_expand_idle` : the search for a plan with an idle filter is always cut short.
-/
import Mathlib.Data.Finset.Max
import QueryPlanner.Proofs.Conjuncts
import QueryPlanner.Proofs.Logical.Layers
import QueryPlanner.Proofs.Search.Saturation
import QueryPlanner.Proofs.Suggestion

namespace QueryPlanner

open Memo

variable {ν : Type}

/-! ## Filters over filters -/

namespace Pattern

/-- A filter has the shape of one over operators of a kind where its input has such a member. -/
theorem isMetBy_filterOver {memo : Memo ν} {kind : OperatorKind} {m : Member} {p : Expr}
    {g : GroupId} (hop : m.op = .filter p) (hlogical : m.convention = .logical)
    (hchildren : m.children = [g]) :
    (filterOver kind).isMetBy memo m = (memo.membersOf g).any ((logical kind).isMetBy memo) := by
  unfold filterOver logicalOver isMetBy
  rw [hop, hlogical, hchildren]
  simp [areMetBy, logical, logicalOver, Operator.kind]

end Pattern

namespace Search

variable {planner : Planner ν} {s u : Search ν}

/-- The number of conjuncts of a filter. -/
def conjunctCount (m : Member) : Nat :=
  match m.op with
  | .filter p => p.conjuncts.length
  | _ => 0

/-- A logical member that filters by a predicate. -/
structure IsFilter (m : Member) (p : Expr) : Prop where
  op : m.op = .filter p
  logical : m.convention = .logical

/-- In a fixpoint with filters, all of which have conjuncts, some filter reads no filter. -/
theorem IsFixpoint.exists_lowest_filter
    (hrules : ∀ rule ∈ planner.registry.rules, rule.IsRegular planner.catalog)
    (hhashes : (planner.registry.rules.map Rule.hash).Nodup)
    (hmerges : Rule.mergeFilters ∈ planner.registry.rules) (hs : IsRunning planner s)
    (hnew : ∀ m hash, s.memo.wasApplied m hash = false) (hpasses : Passes planner s u)
    (hfix : IsFixpoint planner u.memo)
    (hconjuncts : ∀ m < u.memo.members.size, ∀ p, IsFilter (u.memo.member m) p → p.conjuncts ≠ [])
    (hsome : ∃ m < u.memo.members.size, ∃ p, IsFilter (u.memo.member m) p) :
    ∃ m < u.memo.members.size, (∃ p, IsFilter (u.memo.member m) p) ∧
      ∀ g ∈ (u.memo.member m).children, ∀ i ∈ (u.memo.group g).members, ∀ p,
        ¬ IsFilter (u.memo.member i) p := by
  classical
  obtain ⟨hu, -⟩ := hs.passes hrules hpasses
  -- the filter with the most conjuncts
  have hcounts : ∀ {m p}, IsFilter (u.memo.member m) p →
      conjunctCount (u.memo.member m) = p.conjuncts.length := by
    intro m p hfilter
    unfold conjunctCount
    rw [hfilter.op]
  obtain ⟨first, hfirst, hisFilter⟩ := hsome
  obtain ⟨m, hm, hmost⟩ := Finset.exists_max_image
    ((Finset.range u.memo.members.size).filter fun m => ∃ p, IsFilter (u.memo.member m) p)
    (fun m => conjunctCount (u.memo.member m))
    ⟨first, Finset.mem_filter.mpr ⟨Finset.mem_range.mpr hfirst, hisFilter⟩⟩
  obtain ⟨hlt, outer, houter⟩ := Finset.mem_filter.mp hm
  rw [Finset.mem_range] at hlt
  refine ⟨m, hlt, ⟨outer, houter⟩, fun g hg i hi p hp => ?_⟩
  -- it would be merged with a filter that it reads, and the merger has more conjuncts
  have hlength : (u.memo.member m).children.length = 1 := by
    rw [(hu.settled.member m hlt).1.length_children, houter.op]
    rfl
  obtain ⟨x, hx⟩ := List.length_eq_one_iff.mp hlength
  rw [hx, List.mem_singleton] at hg
  subst hg
  have hmet : (Pattern.filterOver .filter).isMetBy u.memo (u.memo.member m) = true := by
    rw [Pattern.isMetBy_filterOver houter.op houter.logical hx, List.any_eq_true]
    refine ⟨u.memo.member i, List.mem_map_of_mem hi, ?_⟩
    have hmet : (Pattern.logical (u.memo.member i).op.kind).isMetBy u.memo (u.memo.member i) = true :=
      Pattern.isMetBy_logical hp.logical
        (hu.settled.member i (hu.settled.lt_of_mem_group hi)).1.length_children
    rwa [hp.op] at hmet
  obtain ⟨earlier, hbefore, hafter, hearlier, hmet', hall⟩ :=
    hfix.isIn hrules hhashes hs hnew hpasses hlt hmerges hmet
  have hop : (earlier.member m).op = .filter outer := (hafter.op_eq hearlier).symm.trans houter.op
  have hchildren : ∃ c, (earlier.member m).children = [c] := by
    rw [← List.length_eq_one_iff, ← hlength, hafter.children_eq hearlier, List.length_map]
  obtain ⟨c, hc⟩ := hchildren
  rw [show Rule.mergeFilters.pattern = Pattern.filterOver .filter from rfl,
    Pattern.isMetBy_filterOver hop ((hafter.convention_eq hearlier).symm.trans houter.logical) hc,
    List.any_eq_true] at hmet'
  obtain ⟨_, hbelow, hshape⟩ := hmet'
  obtain ⟨j, hj, rfl⟩ := List.mem_map.mp hbelow
  obtain ⟨hkind, hlogical⟩ := Rule.isMetBy_logicalOver hshape
  obtain ⟨inner, hinner⟩ : ∃ inner, (earlier.member j).op = .filter inner := by
    revert hkind
    cases (earlier.member j).op <;> simp [Operator.kind]
  have hjlt := hbefore.settled.lt_of_mem_group hj
  have hin := hall _ (Rule.mem_propose_mergeFilters hop hc hj hinner hlogical)
  obtain ⟨k, hk, op', hop', hentry⟩ := hin
  obtain ⟨p', rfl⟩ : ∃ p', op' = .filter p' := by
    cases op' <;> simp [Operator.canonical] at hop' ⊢
  have hpred : p'.canonical =
      (Expr.conjunction (inner.conjuncts ++ outer.conjuncts)).canonical := Operator.filter.inj hop'
  have hj' : IsFilter (u.memo.member j) inner :=
    ⟨(hafter.op_eq hjlt).trans hinner, (hafter.convention_eq hjlt).trans hlogical⟩
  have hinnerConjuncts := hconjuncts j (hafter.lt hjlt) inner hj'
  have hcount : p'.conjuncts.length = inner.conjuncts.length + outer.conjuncts.length := by
    rw [Expr.length_conjuncts_of_canonical_eq hpred, Expr.conjuncts_conjunction,
      List.length_append]
    · intro x hx
      exact (List.mem_append.mp hx).elim Expr.conjuncts_of_mem_conjuncts
        Expr.conjuncts_of_mem_conjuncts
    · exact List.append_ne_nil_of_left_ne_nil hinnerConjuncts _
  have hk' : IsFilter (u.memo.member k) p' := ⟨hentry.op, hentry.convention⟩
  have hle := hmost k (Finset.mem_filter.mpr ⟨Finset.mem_range.mpr hk, p', hk'⟩)
  rw [hcounts hk', hcounts houter, hcount] at hle
  have hpos := List.length_pos_iff.mpr hinnerConjuncts
  omega

/-! ## Idle filters -/

/-- A logical filter has conjuncts, and its input is a given group. -/
def FiltersGroup (g : GroupId) (memo : Memo ν) (m : Member) : Prop :=
  ∀ p, IsFilter m p → p.conjuncts ≠ [] ∧ m.children = [memo.leader g]

theorem isStable_filtersGroup (g : GroupId) : IsStable (FiltersGroup (ν := ν) g) := by
  intro before after m hbefore h hm hfilters p hp
  obtain ⟨hconjuncts, hchildren⟩ := hfilters p
    ⟨(h.op_eq hm).symm.trans hp.op, (h.convention_eq hm).symm.trans hp.logical⟩
  refine ⟨hconjuncts, ?_⟩
  rw [h.children_eq hm, hchildren, List.map_singleton, h.leader_leader hbefore.led]

/-- What the standard rules propose keeps this of all filters. -/
theorem filtersGroup_of_suggests {before after : Memo ν} (hbefore : before.Settled)
    (hgrows : before.GrowsTo after) {g : GroupId} (hevery : before.Every (FiltersGroup g))
    {m x : Member} {p : Proposal} (hp : Rule.Suggests before m p) (hadmits : p.Admits after x) :
    FiltersGroup g after x := by
  intro q hq
  have hlower : ∀ {child below inner}, below ∈ Rule.logicalMembers before child →
      below.op = .filter inner → inner.conjuncts ≠ [] ∧
        below.children.map after.leader = [after.leader g] := by
    intro child below inner hbelow hop
    obtain ⟨i, -, hi, rfl, hlogical⟩ := Rule.exists_of_mem_logicalMembers hbefore hbelow
    obtain ⟨hconjuncts, hchildren⟩ := hevery i hi inner ⟨hop, hlogical⟩
    refine ⟨hconjuncts, ?_⟩
    rw [hchildren, List.map_singleton, hgrows.leader_leader hbefore.led]
  cases hp with
  | commute hop hchildren =>
      obtain ⟨part, hpart, _, _, -, hentry⟩ := hadmits
      have hop' := hentry.op.symm.trans hq.op
      simp only [Source.partsOfList, Source.parts, List.append_nil, List.mem_cons, List.not_mem_nil,
        or_false] at hpart
      rcases hpart with rfl | rfl
      · cases hop'
      · cases hop'
  | push =>
      obtain ⟨_, hentry⟩ := hadmits
      cases hentry.op.symm.trans hq.op
  | merge hop hchild hbelow hinner =>
      obtain ⟨_, hentry⟩ := hadmits
      obtain ⟨hconjuncts, hchildren⟩ := hlower hbelow hinner
      cases hentry.op.symm.trans hq.op
      refine ⟨?_, hentry.children.trans hchildren⟩
      rw [Expr.conjuncts_conjunction]
      · exact List.append_ne_nil_of_left_ne_nil hconjuncts _
      · intro e he
        exact (List.mem_append.mp he).elim Expr.conjuncts_of_mem_conjuncts
          Expr.conjuncts_of_mem_conjuncts
      · exact List.append_ne_nil_of_left_ne_nil hconjuncts _
  | compose =>
      obtain ⟨_, hentry⟩ := hadmits
      cases hentry.op.symm.trans hq.op
  | drop hop hchild htrivial hbelow =>
      obtain ⟨_, hentry⟩ := hadmits
      obtain ⟨hconjuncts, hchildren⟩ := hlower hbelow (hentry.op.symm.trans hq.op)
      exact ⟨hconjuncts, hentry.children.trans hchildren⟩
  | dropBoth hop hchild hbelow hinner hmerged hinput htrivial hfound =>
      obtain ⟨_, hentry⟩ := hadmits
      obtain ⟨hconjuncts, hchildren⟩ := hlower hfound (hentry.op.symm.trans hq.op)
      exact ⟨hconjuncts, hentry.children.trans hchildren⟩
  | implement hc =>
      obtain ⟨-, ⟨_, hentry⟩, -⟩ := hadmits
      rw [hentry.convention.symm.trans hq.logical] at hc
      exact absurd hc (by decide)

/-- So do searches with the standard rules. -/
theorem filtersGroup_of_passes {t : Search ν} {g : GroupId}
    (hstandard : planner.registry.rules = Rule.standard) (hs : IsRunning planner s)
    (hpasses : Passes planner s t) (h : s.memo.Every (FiltersGroup g)) :
    t.memo.Every (FiltersGroup g) := by
  refine every_of_passes ?_ (isStable_filtersGroup g) ?_ ?_ hs hpasses h
  · exact Rule.isRegular_of_eq_standard hstandard
  · rintro memo m ⟨_, _, _, _, hentry⟩ q hq
    cases hentry.op.symm.trans hq.op
  · intro rule hrule before after m hbefore hevery hm hfires p hp i hadmits
    rw [hstandard] at hrule
    have hsuggests := Rule.suggests_of_mem_standard hrule hfires.met
      (hbefore.member m hm).1.length_children hp
    exact filtersGroup_of_suggests hbefore hfires.grows hevery hsuggests hadmits

/-- In a fixpoint, a filter by TRUE over an inner join on TRUE is in the group of the join. -/
theorem IsFixpoint.leader_eq_of_idle
    (hrules : ∀ rule ∈ planner.registry.rules, rule.IsRegular planner.catalog)
    (hhashes : (planner.registry.rules.map Rule.hash).Nodup)
    (hpushes : Rule.filterIntoJoin ∈ planner.registry.rules) (hs : IsRunning planner s)
    (hnew : ∀ m hash, s.memo.wasApplied m hash = false) (hpasses : Passes planner s u)
    (hfix : IsFixpoint planner u.memo) {filter join : MemberId} {g : GroupId}
    (hfilter : filter < s.memo.members.size) (hjoin : join ∈ (s.memo.group g).members)
    (hisFilter : IsFilter (s.memo.member filter) (.literal (.bool true)))
    (hchildren : (s.memo.member filter).children = [g])
    (hop : (s.memo.member join).op = .join .inner (.literal (.bool true)))
    (hlogical : (s.memo.member join).convention = .logical)
    (hinputs : (s.memo.member join).inputs = [.logical, .logical]) :
    u.memo.leader (s.memo.member filter).group = u.memo.leader g := by
  obtain ⟨hu, hgrows⟩ := hs.passes hrules hpasses
  have hjlt := hs.settled.lt_of_mem_group hjoin
  have hlisted : ∀ {later : Memo ν}, s.memo.GrowsTo later →
      join ∈ (later.group (later.leader g)).members := by
    intro later h
    rw [members_congr (h.settled.led.leader_leader g)]
    exact h.mem_group hs.settled hjoin
  have hreads : ∀ {later : Memo ν}, s.memo.GrowsTo later →
      IsFilter (later.member filter) (.literal (.bool true)) ∧
        (later.member filter).children = [later.leader g] := by
    intro later h
    refine ⟨⟨(h.op_eq hfilter).trans hisFilter.op,
      (h.convention_eq hfilter).trans hisFilter.logical⟩, ?_⟩
    rw [h.children_eq hfilter, hchildren, List.map_singleton]
  obtain ⟨hfilter', hchildren'⟩ := hreads hgrows
  -- the filter is over the join at the end, so that it was pushed into it
  have hlength := (hu.settled.member join (hgrows.lt hjlt)).1.length_children
  have hmet : (Pattern.filterOver .join).isMetBy u.memo (u.memo.member filter) = true := by
    rw [Pattern.isMetBy_filterOver hfilter'.op hfilter'.logical hchildren', List.any_eq_true]
    refine ⟨u.memo.member join, List.mem_map_of_mem (hlisted hgrows), ?_⟩
    have hshape : (Pattern.logical (u.memo.member join).op.kind).isMetBy u.memo
        (u.memo.member join) = true :=
      Pattern.isMetBy_logical ((hgrows.convention_eq hjlt).trans hlogical) hlength
    rwa [hgrows.op_eq hjlt, hop] at hshape
  obtain ⟨earlier, hbefore, hafter, hearlier, -, hall⟩ :=
    hfix.isIn hrules hhashes hs hnew hpasses (hgrows.lt hfilter) hpushes hmet
  obtain ⟨hfilter'', hchildren''⟩ := hreads hbefore
  have hin := hall _ (Rule.mem_propose_filterIntoJoin hfilter''.op hchildren'' (hlisted hbefore)
    ((hbefore.op_eq hjlt).trans hop) ((hbefore.convention_eq hjlt).trans hlogical))
  obtain ⟨k, hk, op', hop', hentry⟩ := hin
  -- what was proposed is the join itself
  have hkey : (u.memo.member k).key = (u.memo.member join).key := by
    have hinputs' : ((earlier.member join).children.map fun _ => Convention.logical) =
        [.logical, .logical] := by
      rw [hafter.children_eq (hbefore.lt hjlt), List.length_map, hgrows.op_eq hjlt, hop] at hlength
      rw [List.map_const', hlength]
      rfl
    unfold Member.key MemberKey.of
    rw [hentry.op, hentry.convention, hentry.children, hentry.inputs, hop', hinputs',
      hafter.children_eq (hbefore.lt hjlt), hgrows.op_eq hjlt, hgrows.convention_eq hjlt,
      hgrows.inputs_eq hjlt, hop, hlogical, hinputs]
    rfl
  have hgroups := hu.settled.group_eq_of_key hk (hgrows.lt hjlt) hkey
  rw [hentry.group, hgrows.group_eq hfilter, hu.settled.led.leader_leader] at hgroups
  rw [hgroups]
  exact (hu.settled.mem_group_iff.mp (hgrows.mem_group hs.settled hjoin)).2.2

/-- A local table of one column. -/
def plainTable : Request.Table :=
  { schema := "s", name := "t", columns := [⟨"a", .int64, true⟩], rowCount := none,
    federated := false, rows := [] }

/-- All pairs of rows of the table, filtered by TRUE. -/
def idleFilter : Request.Relation :=
  .filter (.literal (.bool true)) (.join .inner (.literal (.bool true)) (.scan "s" "t") (.scan "s" "t"))

/-- In the memo that is built, the first member scans the table, the second one joins, and the third
one filters. -/
theorem members_of_build_idleFilter {memo : Memo Float}
    (hbuild : (Request.build [plainTable] idleFilter).run.run {} = (.ok 2, memo)) :
    memo.members.size = 3 ∧ (memo.member 0).op.kind = .scan ∧ 1 ∈ (memo.group 1).members ∧
      (memo.member 1).op = .join .inner (.literal (.bool true)) ∧
      (memo.member 1).convention = .logical ∧ (memo.member 1).inputs = [.logical, .logical] ∧
      (memo.member 2).op = .filter (.literal (.bool true)) ∧
      (memo.member 2).convention = .logical ∧ (memo.member 2).children = [1] ∧
      (memo.member 2).group = 2 ∧ memo.leader 1 = 1 ∧ memo.leader 2 = 2 ∧ 2 < memo.groups.size := by
  obtain rfl : ((Request.build [plainTable] idleFilter).run.run {}).2 = memo := by rw [hbuild]
  decide +kernel

/-- No budget is enough for the search for this plan to end at a fixpoint, whatever the goal and the
costs. -/
theorem eq_true_of_returns_expand_idle {planner : Planner Float} {memo : Memo Float}
    (hbuild : (Request.build [plainTable] idleFilter).run.run {} = (.ok 2, memo))
    (hstandard : planner.registry.rules = Rule.standard) (c : Convention) {fuel : Nat} {b : Bool}
    {u : Search Float} (h : Returns (expand planner 2 ⟨c, none⟩ fuel)
      { memo := memo.require 2 c } b u) : b = true := by
  have hrules : ∀ rule ∈ planner.registry.rules, rule.IsRegular planner.catalog :=
    Rule.isRegular_of_eq_standard hstandard
  have hhashes : (planner.registry.rules.map Rule.hash).Nodup := by
    rw [hstandard]
    exact Rule.nodup_hash_standard
  have hpushes : Rule.filterIntoJoin ∈ planner.registry.rules := by
    rw [hstandard]
    simp [Rule.standard, Rule.transformations]
  have hmerges : Rule.mergeFilters ∈ planner.registry.rules := by
    rw [hstandard]
    simp [Rule.standard, Rule.transformations]
  obtain ⟨hbuilt, -, -⟩ := Request.layers_of_build hbuild
  obtain ⟨hsettled, hnew, -⟩ := hbuilt.entries
  obtain ⟨hsize, hscan, hlisted, hjoin, hlogical, hinputs, hop, hlogical', hchildren, hgroup, hleader,
    hleader', hlt⟩ := members_of_build_idleFilter hbuild
  have hstart := hbuilt.isRunning planner
  have hrequire : Move planner { memo := memo } { memo := memo.require 2 c } := .require 2 c
  obtain ⟨hrequired, -⟩ := hstart.move hrules hrequire
  obtain ⟨hexpanded, hended⟩ := returns_expand hrules hrequired h
  rw [← Bool.not_eq_false]
  intro hb
  have hpasses := (Relation.ReflTransGen.single hrequire).trans hexpanded
  have hfix := (hended hb).resolve_right fun hceiling => Bool.false_ne_true hceiling.1
  obtain ⟨hu, hgrows⟩ := hstart.passes hrules hpasses
  have hfilter : IsFilter (memo.member 2) (.literal (.bool true)) := ⟨hop, hlogical'⟩
  have hmember : 2 < memo.members.size := by omega
  -- the filter comes into the group that it reads, and so do all filters
  have hsame := hfix.leader_eq_of_idle hrules hhashes hpushes hstart hnew hpasses hmember hlisted
    hfilter hchildren hjoin hlogical hinputs
  rw [hgroup] at hsame
  have hevery : memo.Every (FiltersGroup 1) := by
    intro m hm p hp
    obtain rfl | rfl | rfl : m = 0 ∨ m = 1 ∨ m = 2 := by omega
    · rw [hp.op] at hscan
      cases hscan
    · cases hjoin.symm.trans hp.op
    · cases hop.symm.trans hp.op
      exact ⟨List.cons_ne_nil _ _, by rw [hchildren, hleader]⟩
  have hall := filtersGroup_of_passes hstandard hstart hpasses hevery
  have hfilter' : IsFilter (u.memo.member 2) (.literal (.bool true)) :=
    ⟨(hgrows.op_eq hmember).trans hop, (hgrows.convention_eq hmember).trans hlogical'⟩
  -- but some filter reads no filter
  obtain ⟨m, hm, ⟨p, hp⟩, hlowest⟩ := hfix.exists_lowest_filter hrules hhashes hmerges hstart hnew
    hpasses (fun m hm p hp => (hall m hm p hp).1) ⟨2, hgrows.lt hmember, _, hfilter'⟩
  have hread : u.memo.leader 1 ∈ (u.memo.member m).children := by
    rw [(hall m hm p hp).2]
    exact List.mem_singleton_self _
  refine hlowest _ hread 2 ?_ _ hfilter'
  rw [members_congr (hu.settled.led.leader_leader 1), ← members_congr hsame]
  refine hu.settled.mem_group_iff.mpr ⟨Nat.lt_of_lt_of_le hlt hgrows.groups, hgrows.lt hmember, ?_⟩
  rw [hgrows.group_eq hmember, hgroup]

/-- For this plan there is no bound from which on every budget lets the search end at a fixpoint. -/
theorem not_exists_budget_idleFilter :
    ∃ registry memo, Registry.standard = .ok registry ∧
      (Request.build [plainTable] idleFilter).run.run {} = (.ok 2, memo) ∧
      ¬ ∃ bound, ∀ budget : Budget, bound ≤ budget.iterations → bound ≤ budget.groups →
        ∃ u, Returns (expand ⟨registry, RowWork.standard.model, Request.catalog [plainTable], budget⟩ 2
          ⟨.iterator, none⟩ (budget.iterations + 1)) { memo := memo.require 2 .iterator } false u := by
  have hroot : ((Request.build [plainTable] idleFilter).run.run {}).1 = .ok 2 := by
    decide +kernel
  have hbuild : (Request.build [plainTable] idleFilter).run.run {} =
      (.ok 2, ((Request.build [plainTable] idleFilter).run.run {}).2) :=
    Prod.ext hroot rfl
  refine ⟨_, _, Registry.standard_eq, hbuild, ?_⟩
  rintro ⟨bound, hbound⟩
  obtain ⟨u, hu⟩ := hbound ⟨bound, bound⟩ (Nat.le_refl _) (Nat.le_refl _)
  exact Bool.false_ne_true (eq_true_of_returns_expand_idle hbuild rfl .iterator hu)

end Search

end QueryPlanner
