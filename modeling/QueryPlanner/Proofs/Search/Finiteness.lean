/-
# Saturation is finite

A search without a ceiling saturates its memo within some number of iterations and groups, if every
predicate that the plan filters by says something: then everything that rules make of the plan is
within limits, and rounds go on until there is nothing left to do. Where a predicate says nothing this
may fail, as filters can then be merged without end.

* `exists_round` : with a budget above its limits, a round is never the last one because of it;
* `exists_budget_of_build` : from some budget on, the search for a plan ends at a fixpoint.
-/
import QueryPlanner.Proofs.Logical.Limits
import QueryPlanner.Proofs.Search.Bounds
import QueryPlanner.Proofs.Search.Budget
import QueryPlanner.Proofs.Search.Divergence

namespace QueryPlanner

open Memo

namespace Search

variable {ν : Type} [Quantity ν] {lim : Limits} {planner : Planner ν} {s t : Search ν}
  {root : GroupId} {c : Convention}

omit [Quantity ν] in
/-- A search that is about to start is within limits if its memo is. -/
theorem isBounded_start {registry : Registry ν} {memo : Memo ν} {den : GroupId → Shape}
    (h : memo.IsBounded lim den) (root : GroupId) (c : Convention) :
    IsBounded lim registry { memo := memo.require root c } where
  memo := ⟨den, (h.expands_require root c).bounded⟩
  work := by
    show 0 + _ ≤ _
    rw [Nat.zero_add]
    exact work_le_maxIterations _
  goesOn := rfl

omit [Quantity ν] in
/-- Budgets above all limits do not run out. -/
theorem IsBounded.not_isExhausted (h : s.IsBounded lim planner.registry)
    (hiterations : maxIterations lim planner.registry < planner.budget.iterations)
    (hgroups : lim.maxGroups < planner.budget.groups) : isExhausted planner.budget s = false := by
  obtain ⟨den, hmemo⟩ := h.memo
  have hspent := h.work
  have hsize : s.memo.groupCount ≤ lim.maxGroups := by
    refine Nat.le_trans ?_ (Nat.le_trans (Nat.le_add_right _ _) hmemo.groups)
    exact Nat.le_trans (List.length_filter_le ..) (Nat.le_of_eq List.length_range)
  unfold isExhausted
  rw [h.goesOn, Bool.false_or, Bool.or_eq_false_iff, decide_eq_false_iff_not,
    decide_eq_false_iff_not]
  omega

section Rounds

variable (hstandard : planner.registry.rules = Rule.standard)
  (hconversions : ∀ hop ∈ planner.registry.conversions,
    hop.1 ∈ lim.conventions ∧ hop.2 ∈ lim.conventions)
  (hiterations : maxIterations lim planner.registry < planner.budget.iterations)
  (hgroups : lim.maxGroups < planner.budget.groups)

include hstandard hconversions hiterations hgroups

/-- A round stays within limits, and is the last one only if nothing was new. -/
theorem exists_round (h : s.IsBounded lim planner.registry) :
    ∃ r t, Returns (round planner root ⟨c, none⟩) s r t ∧ t.IsBounded lim planner.registry ∧
      (r = none ∨ r = some false) := by
  obtain ⟨fired, u, hfire, hu⟩ := exists_fireAll hstandard hiterations h
  obtain ⟨converted, t, hconvert, ht⟩ := exists_convertAll hconversions hiterations hu
  have hround : Returns (round planner root ⟨c, none⟩) s
      (if fired || converted then none else some false) t := by
    unfold round
    refine Returns.bind (returns_get.mpr ⟨rfl, rfl⟩) ?_
    rw [h.not_isExhausted hiterations hgroups, if_neg Bool.false_ne_true]
    refine Returns.bind (a := false) (returns_pure.mpr ⟨rfl, rfl⟩) ?_
    rw [if_neg Bool.false_ne_true]
    refine hfire.bind (hconvert.bind ?_)
    split
    · exact returns_pure.mpr ⟨rfl, rfl⟩
    · exact returns_pure.mpr ⟨rfl, rfl⟩
  refine ⟨_, t, hround, ht, ?_⟩
  split
  · exact .inl rfl
  · exact .inr rfl

/-- So rounds end with one after which nothing was new. -/
theorem eq_false_of_loop_round (h : s.IsBounded lim planner.registry)
    {r : Except (OptimizationError ν) Bool} (hloop : Loop (round planner root ⟨c, none⟩) s r t) :
    r = .ok false := by
  induction hloop with
  | @fail s t e hfails =>
      obtain ⟨r, u, hround, -, -⟩ := exists_round hstandard hconversions hiterations hgroups h
      exact nomatch hfails.symm.trans hround
  | @done s t a hdone =>
      obtain ⟨r, u, hround, -, hr⟩ := exists_round hstandard hconversions hiterations hgroups h
      obtain ⟨hr', -⟩ := Prod.mk.inj (hdone.symm.trans hround)
      obtain rfl := Except.ok.inj hr'
      rcases hr with hnone | hfalse
      · exact nomatch hnone
      · rw [Option.some.inj hfalse]
  | @again s t u r hagain hrest ih =>
      obtain ⟨r', u', hround, hu, -⟩ := exists_round hstandard hconversions hiterations hgroups h
      obtain ⟨-, rfl⟩ := Prod.mk.inj (hagain.symm.trans hround)
      exact ih hu

end Rounds

/-- From some budget on, the search for a plan ends at a fixpoint, whatever the costs, the catalog and
the goal are, if every predicate that the plan filters by has a conjunct other than TRUE. -/
theorem exists_budget_of_build {registry : Registry Float}
    (hregistry : Registry.standard = .ok registry) {tables : List Request.Table}
    {relation : Request.Relation} {root : GroupId} {memo : Memo Float} {logical : LogicalPlan}
    (hbuild : (Request.build tables relation).run.run {} = (.ok root, memo))
    (hlogical : relation.logical tables = .ok logical)
    (hcontent : ∀ p, .filter p ∈ logical.operators → 0 < p.content) :
    ∃ bound, ∀ (costs : CostModel Float) (catalog : Catalog Float) (budget : Budget) (c : Convention),
      bound ≤ budget.iterations → bound ≤ budget.groups →
        ∃ u, Returns (expand ⟨registry, costs, catalog, budget⟩ root ⟨c, none⟩
            (budget.iterations + 1)) { memo := memo.require root c } false u ∧
          IsFixpoint ⟨registry, costs, catalog, budget⟩ u.memo := by
  obtain ⟨lim, den, hbounded⟩ := exists_limits_of_build hbuild hlogical hcontent
  rw [Registry.standard_eq, Except.ok.injEq] at hregistry
  have hrules : registry.rules = Rule.standard := by
    rw [← hregistry]
    rfl
  have hconversions : ∀ hop ∈ registry.conversions,
      hop.1 ∈ lim.conventions ∧ hop.2 ∈ lim.conventions := by
    have hbuiltin : ∀ hop ∈ [(.federated, .iterator), (.iterator, .compiled), (.compiled, .iterator),
        (.compiled, .compiledRecord), (.compiledRecord, .compiled)],
        hop.1 ∈ Convention.builtin ∧ hop.2 ∈ Convention.builtin := by
      decide
    intro hop hhop
    rw [← hregistry] at hhop
    obtain ⟨hsource, htarget⟩ := hbuiltin hop (Conversions.mem_builtin.mp hhop)
    exact ⟨lim.builtin_mem _ hsource, lim.builtin_mem _ htarget⟩
  refine ⟨max (maxIterations lim registry) lim.maxGroups + 1, fun costs catalog budget c hi hg => ?_⟩
  obtain ⟨r, u, hloop, hrun⟩ := exists_loop_expand ⟨registry, costs, catalog, budget⟩ root ⟨c, none⟩
    { memo := memo.require root c }
  have hmax := Nat.le_max_left (maxIterations lim registry) lim.maxGroups
  have hmax' := Nat.le_max_right (maxIterations lim registry) lim.maxGroups
  have hstandard : (Planner.mk registry costs catalog budget).registry.rules = Rule.standard := hrules
  obtain rfl := eq_false_of_loop_round hstandard hconversions (by dsimp only; omega)
    (by dsimp only; omega) (isBounded_start hbounded root c) hloop
  refine ⟨u, hrun, ?_⟩
  have hregular : ∀ rule ∈ registry.rules, rule.IsRegular catalog :=
    Rule.isRegular_of_eq_standard hrules
  obtain ⟨hbuilt, -, -⟩ := Request.layers_of_build hbuild
  obtain ⟨hrequired, -⟩ := (hbuilt.isRunning ⟨registry, costs, catalog, budget⟩).move hregular
    (.require root c)
  exact ((returns_expand hregular hrequired hrun).2 rfl).resolve_right fun hceiling =>
    Bool.false_ne_true hceiling.1

/-- All pairs of rows of the table, filtered by the first column. -/
def onesFilter : Request.Relation :=
  .filter (.binary "=" (.column 0) (.literal (.int 1)))
    (.join .inner (.literal (.bool true)) (.scan "s" "t") (.scan "s" "t"))

/-- With a predicate other than TRUE, the search for the filtered pairs of rows ends at a fixpoint. -/
theorem exists_budget_onesFilter :
    ∃ registry memo logical, Registry.standard = .ok registry ∧
      (Request.build [plainTable] onesFilter).run.run {} = (.ok 2, memo) ∧
      onesFilter.logical [plainTable] = .ok logical ∧
      (∀ p, .filter p ∈ logical.operators → 0 < p.content) ∧
      ∃ bound, ∀ budget : Budget, bound ≤ budget.iterations → bound ≤ budget.groups →
        ∃ u, Returns (expand ⟨registry, RowWork.standard.model, Request.catalog [plainTable], budget⟩ 2
            ⟨.iterator, none⟩ (budget.iterations + 1)) { memo := memo.require 2 .iterator } false u ∧
          IsFixpoint ⟨registry, RowWork.standard.model, Request.catalog [plainTable], budget⟩ u.memo := by
  have hroot : ((Request.build [plainTable] onesFilter).run.run {}).1 = .ok 2 := by
    decide +kernel
  have hbuild : (Request.build [plainTable] onesFilter).run.run {} =
      (.ok 2, ((Request.build [plainTable] onesFilter).run.run {}).2) :=
    Prod.ext hroot rfl
  obtain ⟨logical, hlogical⟩ : ∃ logical, onesFilter.logical [plainTable] = .ok logical := ⟨_, rfl⟩
  have hcontent : ∀ p, .filter p ∈ logical.operators → 0 < p.content := by
    intro p hp
    cases hlogical
    rcases List.mem_cons.mp hp with hp | hp
    · cases hp
      decide
    · simp [LogicalPlan.operators] at hp
  obtain ⟨bound, hbound⟩ := exists_budget_of_build Registry.standard_eq hbuild hlogical hcontent
  refine ⟨_, _, logical, Registry.standard_eq, hbuild, hlogical, hcontent, bound, ?_⟩
  exact fun budget hiterations hgroups => hbound _ _ budget _ hiterations hgroups

end Search

end QueryPlanner
