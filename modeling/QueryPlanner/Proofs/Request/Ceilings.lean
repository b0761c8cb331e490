/-
# Plans of a request under a ceiling

A ceiling is there to end a search early. Where it does not, because no plan is as cheap, the search goes
through the same rounds as one without a ceiling. But it prices the plans that it has before every round,
and the statistics that it notes then are not derived again when groups are merged later on. So the plan
is the same if no groups were merged, and need not be if some were.

* `Request.plan_of_unmet_ceiling` : the rounds are the same, and the plan if the statistics are current;
* `Request.dearer_under_unmet_ceiling` : a plan that is priced differently, after a merge.
-/
import QueryPlanner.Proofs.Logical.Layers
import QueryPlanner.Proofs.Registry
import QueryPlanner.Proofs.Search.Ceiling
import QueryPlanner.Proofs.Search.Estimation

namespace QueryPlanner

open Memo Quantity Search

namespace Request

/-- Where a search with a ceiling returns a plan that costs more, its rounds are those of the search
without a ceiling, and leave the same memo up to notes. If the statistics that were noted by then would be
derived again, that search returns the same plan, with the same costs and numbers of rows, and does not
call it truncated unless a budget ran out. This is so whenever no groups were merged. -/
theorem plan_of_unmet_ceiling {registry : Registry Float} (hregistry : Registry.standard = .ok registry)
    {tables : List Table} {relation : Relation} {root : GroupId} {memo : Memo Float}
    (hbuild : (build tables relation).run.run {} = (.ok root, memo)) (catalog : Catalog Float)
    (budget : Budget) (c : Convention) {ceiling : Float} {plan : Plan Float} {t : Search Float}
    (h : Returns (Search.optimize ⟨registry, RowWork.standard.model, catalog, budget⟩ root
      ⟨c, some ceiling⟩) { memo := memo } plan t) (hover : lt ceiling plan.cost = true) :
    let planner : Planner Float := ⟨registry, RowWork.standard.model, catalog, budget⟩
    ∃ exhausted u, Returns (expand planner root ⟨c, some ceiling⟩ (budget.iterations + 1))
        { memo := memo.require root c } exhausted u ∧
      Returns (expand planner root ⟨c, none⟩ (budget.iterations + 1))
        { memo := memo.require root c } exhausted u.reread ∧
      (IsCurrent catalog u.memo → ∃ t',
        Returns (Search.optimize planner root ⟨c, none⟩) { memo := memo } ⟨plan.root, exhausted⟩ t') ∧
      (u.memo.merges = 0 → IsCurrent catalog u.memo) := by
  intro planner
  have hstandard : planner.registry.rules = Rule.standard := Registry.rules_of_standard hregistry
  have hnames : ∀ rule ∈ planner.registry.rules, NamesGroups planner.catalog rule :=
    namesGroups_of_eq_standard hstandard
  have hblind : ∀ rule ∈ planner.registry.rules, rule.IgnoresNotes planner.catalog := by
    intro rule hrule
    rw [hstandard] at hrule
    exact Rule.ignoresNotes_of_mem_standard hrule
  have hmemo : LogicallyBuilt memo := (layers_of_build hbuild).1
  obtain ⟨exhausted, u, hexpand, hrounds, hplan⟩ :=
    optimize_without_ceiling hnames hblind hmemo h (le_float_of_lt hover)
  refine ⟨exhausted, u, hexpand, hrounds, hplan, fun hmerges => ?_⟩
  have hrequired : Attained planner (memo.require root c) := (Attained.start hmemo).require root c
  exact ((isKept_attained hnames).expand root _ _ |>.of_returns hexpand hrequired).isCurrent hmerges

/-- Two rows, of which one has a one in front. -/
def twoRows : Relation :=
  .values [⟨"a", .int64, true⟩, ⟨"b", .int64, true⟩] [[.int 1, .int 0], [.int 2, .int 0]]

/-- Up to ten of them are planned the same without the ceiling, which no plan meets. -/
theorem plan_of_unmet_ceiling_twoRows :
    ∃ registry memo plan t t', Registry.standard = .ok registry ∧
      (build [] (.limit 0 10 twoRows)).run.run {} = (.ok 1, memo) ∧
      Returns (Search.optimize ⟨registry, RowWork.standard.model, catalog [], {}⟩ 1 ⟨.iterator, some 0⟩)
        { memo := memo } plan t ∧ lt 0 plan.cost = true ∧
      Returns (Search.optimize ⟨registry, RowWork.standard.model, catalog [], {}⟩ 1 ⟨.iterator, none⟩)
        { memo := memo } ⟨plan.root, false⟩ t' := by
  have hroot : ((build [] (.limit 0 10 twoRows)).run.run {}).1 = .ok 1 := by decide +kernel
  have hsearched : ∀ memo, memo = ((build [] (.limit 0 10 twoRows)).run.run {}).2 →
      (((Search.optimize ⟨.builtin, RowWork.standard.model, catalog [], {}⟩ 1 ⟨.iterator, some 0⟩).run.run
          { memo := memo }).1.toOption.any fun plan => lt 0 plan.cost) = true ∧
      ((expand ⟨.builtin, RowWork.standard.model, catalog [], {}⟩ 1 ⟨.iterator, some 0⟩ 1000001).run.run
          { memo := memo.require 1 .iterator }).1.toOption = some false ∧
      ((expand ⟨.builtin, RowWork.standard.model, catalog [], {}⟩ 1 ⟨.iterator, some 0⟩ 1000001).run.run
          { memo := memo.require 1 .iterator }).2.memo.merges = 0 := by
    rintro _ rfl
    decide +kernel
  -- from here on the memo is only a name, so that nothing evaluates the search again
  obtain ⟨memo, hmemo⟩ : ∃ memo, memo = ((build [] (.limit 0 10 twoRows)).run.run {}).2 := ⟨_, rfl⟩
  have hbuild : (build [] (.limit 0 10 twoRows)).run.run {} = (.ok 1, memo) :=
    Prod.ext hroot hmemo.symm
  obtain ⟨hoptimized, hexpanded, hmerges⟩ := hsearched memo hmemo
  obtain ⟨plan, hplan, hover⟩ := (Option.any_eq_true _ _).mp hoptimized
  have h := returns_of_toOption hplan
  obtain ⟨exhausted, u, hexpand, -, hsame, hcurrent⟩ :=
    plan_of_unmet_ceiling Registry.standard_eq hbuild (catalog []) {} .iterator h hover
  have hrun := Prod.mk.inj ((returns_of_toOption hexpanded).symm.trans hexpand)
  obtain rfl := Except.ok.inj hrun.1
  rw [hrun.2] at hmerges
  obtain ⟨t', ht'⟩ := hsame (hcurrent hmerges)
  exact ⟨_, memo, plan, _, t', Registry.standard_eq, hbuild, h, hover, ht'⟩

/-- Those of the rows that have a one in front, after they were given other names twice. -/
def renamedOnes : Relation :=
  .limit 0 10 (.filter (.binary "=" (.column 0) (.literal (.int 1)))
    (.project [⟨"a", .int64, .column 0⟩, ⟨"b", .int64, .column 1⟩]
      (.project [⟨"c", .int64, .column 0⟩, ⟨"c", .int64, .column 1⟩] twoRows)))

/-- What a search with a ceiling of nothing and one without a ceiling make of them. -/
theorem searched_renamedOnes : ∀ memo, memo = ((build [] renamedOnes).run.run {}).2 →
    (((Search.optimize ⟨.builtin, RowWork.standard.model, catalog [], { iterations := 14 }⟩ 4 ⟨.iterator, some 0⟩).run.run
        { memo := memo }).1.toOption.any fun plan => lt 0 plan.cost &&
      ((Search.optimize ⟨.builtin, RowWork.standard.model, catalog [], { iterations := 14 }⟩ 4 ⟨.iterator, none⟩).run.run
          { memo := memo }).1.toOption.any fun plan' =>
            lt plan'.cost plan.cost && lt plan'.root.rows plan.root.rows) = true := by
  rintro _ rfl
  decide +kernel

/-- With a ceiling that no plan meets, they are planned dearer than without one, and with more rows. Under
the names between, both columns are taken for the second one, which has the same value in both rows. With
the ceiling, the filter is estimated from that before its input is found to be the two rows themselves,
whose first column has two values; without it, only afterwards. -/
theorem dearer_under_unmet_ceiling :
    ∃ registry memo plan t plan' t', Registry.standard = .ok registry ∧
      (build [] renamedOnes).run.run {} = (.ok 4, memo) ∧
      Returns (Search.optimize ⟨registry, RowWork.standard.model, catalog [], { iterations := 14 }⟩ 4
        ⟨.iterator, some 0⟩) { memo := memo } plan t ∧ lt 0 plan.cost = true ∧
      Returns (Search.optimize ⟨registry, RowWork.standard.model, catalog [], { iterations := 14 }⟩ 4
        ⟨.iterator, none⟩) { memo := memo } plan' t' ∧
      lt plan'.cost plan.cost = true ∧ lt plan'.root.rows plan.root.rows = true := by
  have hroot : ((build [] renamedOnes).run.run {}).1 = .ok 4 := by decide +kernel
  obtain ⟨memo, hmemo⟩ : ∃ memo, memo = ((build [] renamedOnes).run.run {}).2 := ⟨_, rfl⟩
  have hbuild : (build [] renamedOnes).run.run {} = (.ok 4, memo) := Prod.ext hroot hmemo.symm
  obtain ⟨plan, hplan, hrest⟩ := (Option.any_eq_true _ _).mp (searched_renamedOnes memo hmemo)
  obtain ⟨hover, hother⟩ := Bool.and_eq_true_iff.mp hrest
  obtain ⟨plan', hplan', hcompared⟩ := (Option.any_eq_true _ _).mp hother
  obtain ⟨hcost, hrows⟩ := Bool.and_eq_true_iff.mp hcompared
  exact ⟨_, memo, plan, _, plan', _, Registry.standard_eq, hbuild, returns_of_toOption hplan, hover,
    returns_of_toOption hplan', hcost, hrows⟩

end Request

end QueryPlanner
