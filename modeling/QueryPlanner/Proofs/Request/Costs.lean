/-
# The costs of requests add up

A request is planned in floats. In other numbers it would be planned from the same memo, since no edit of
the memo reads a number, and from the same tables, with their row counts read as such numbers. Planned
without rounding, it never comes to a node that is cheaper than one of its inputs, if no table has a
negative number of rows.

* `LogicallyBuilt.reread` : the memo of a plan, for other numbers;
* `Request.catalogOver`, `Request.catalogOver_float` : what is known about its tables, in any numbers;
* `Request.costs_add_up` : selectivities, statistics and costs in all searches for the plan.
-/
import QueryPlanner.Proofs.Logical.Layers
import QueryPlanner.Proofs.Memo.Reread
import QueryPlanner.Proofs.Registry
import QueryPlanner.Proofs.Search.Finiteness
import QueryPlanner.Proofs.Search.Monotonicity

namespace QueryPlanner

open Memo Quantity Search

variable {ν μ : Type}

/-- A memo of logical members is one without its notes, too. -/
theorem Search.LogicallyBuilt.reread {memo : Memo ν} (h : LogicallyBuilt memo) :
    LogicallyBuilt (memo.reread : Memo μ) := by
  induction h with
  | empty =>
      rw [reread_empty]
      exact .empty
  | @addLogical memo _ op children hlt ih =>
      rw [← (mirrors_addLogical op children).state]
      refine ih.addLogical op fun child hchild => ?_
      rw [size_groups_reread]
      exact hlt child hchild

namespace Request

/-! ## Tables -/

section Tables

variable [Quantity ν]

/-- What is known about a table, in any numbers. -/
def Table.statisticsOver (t : Table) : Statistics ν :=
  .sized ((t.rowCount.map ofFloat).getD (ofNat t.rows.length)) t.columns.length

/-- What is known about the tables of a request, in any numbers. -/
def catalogOver (tables : List Table) : Catalog ν :=
  tables.foldl (fun catalog t =>
    if t.federated then catalog.addFederated t.tableName t.rowType t.statisticsOver
    else catalog.addTable t.tableName t.rowType t.statisticsOver) {}

/-- In floats, it is what the request is planned from. -/
theorem catalogOver_float (tables : List Table) : (catalogOver tables : Catalog Float) = catalog tables := by
  have hstatistics : (Table.statisticsOver : Table → Statistics Float) = Table.statistics := by
    funext t
    unfold Table.statisticsOver Table.statistics
    rcases t.rowCount with _ | n
    · rfl
    · rfl
  unfold catalogOver catalog
  rw [hstatistics]

/-- What is known about any table is what is known about one of the request's. -/
theorem exists_of_statistics?_catalogOver {tables : List Table} {table : TableName} {s : Statistics ν}
    (h : (catalogOver tables).statistics? table = some s) : ∃ t ∈ tables, s = t.statisticsOver := by
  have hall : ∀ entry ∈ (catalogOver tables : Catalog ν).statistics,
      ∃ t ∈ tables, entry.2 = t.statisticsOver := by
    refine List.foldlRecOn (motive := fun catalog : Catalog ν => ∀ entry ∈ catalog.statistics,
      ∃ t ∈ tables, entry.2 = t.statisticsOver) _ _ ?_ fun catalog hcatalog t ht => ?_
    · exact fun _ hentry => absurd hentry List.not_mem_nil
    · have hinsert : ∀ entry ∈ catalog.statistics.insert t.tableName.display t.statisticsOver,
          ∃ t ∈ tables, entry.2 = t.statisticsOver := Dictionary.forall_mem_insert
        (P := fun s : Statistics ν => ∃ t ∈ tables, s = t.statisticsOver) hcatalog ⟨t, ht, rfl⟩
      split
      · exact hinsert
      · exact hinsert
  exact hall _ (Dictionary.mem_of_get?_eq_some h)

end Tables

/-! ## Costs -/

section Costs

variable {log2 : Rat → Rat}

/-- Whatever search of a plan is run without rounding, over tables of no negative number of rows: every
predicate selects a share of the rows of every group, no statistics are negative, every member that can
be run costs at least what its inputs do together, and no search complains of the contrary. -/
theorem costs_add_up (hlog2 : ∀ x, 1 < x → 0 ≤ log2 x) {registry : Registry (Exact log2)}
    (hregistry : Registry.standard = .ok registry) {tables : List Table} {relation : Relation}
    {root : GroupId} {memo : Memo Float}
    (hbuild : (build tables relation).run.run {} = (.ok root, memo))
    (hrows : ∀ t ∈ tables, ∀ x, t.rowCount = some x → 0 ≤ (Double.ofFloat x).toRat) (budget : Budget) :
    let planner : Planner (Exact log2) :=
      ⟨registry, RowWork.standard.model, catalogOver tables, budget⟩
    (∀ root goal, Attained planner ((Search.optimize planner root goal).run.run { memo := memo.reread }).2.memo) ∧
    IsKept planner (Attained planner) ∧
    (∀ passed, Attained planner passed →
      (∀ g, (passed.statisticsOf g).IsNonnegative ∧
        ∀ p, IsShare ((passed.statisticsOf g).selectivity p)) ∧
      ∀ m x costs, (passed.member m).isLogical = false →
        costOf planner passed (passed.member m) = some (x, costs) → total costs ≤ x) ∧
    ∀ root goal e, Fails (Search.optimize planner root goal) { memo := memo.reread } e → ¬ e.IsNonMonotonic := by
  intro planner
  have hstandard : registry.rules = Rule.standard ∧
      registry.convertlets.entries = Convertlet.builtin := by
    rw [Registry.standard_eq, Except.ok.injEq] at hregistry
    rw [← hregistry]
    exact ⟨rfl, rfl⟩
  have hrules : ∀ rule ∈ planner.registry.rules, NamesGroups planner.catalog rule :=
    namesGroups_of_eq_standard hstandard.1
  have hcosted : IsCosted planner := by
    refine ⟨hstandard.2, rfl, fun table s hs => ?_⟩
    obtain ⟨t, ht, rfl⟩ := exists_of_statistics?_catalogOver hs
    refine Statistics.IsNonnegative.sized ?_ _
    rcases hcount : t.rowCount with _ | x
    · exact Exact.ofNat_nonneg t.rows.length
    · exact hrows t ht x hcount
  have hkept := isKept_attained hrules
  have hstart : Attained planner memo.reread := .start (layers_of_build hbuild).1.reread
  refine ⟨fun root goal => hkept.optimize root goal _ hstart, hkept, ?_, ?_⟩
  · intro passed hpassed
    have hnoted := hpassed.noted hlog2 hcosted
    refine ⟨fun g => ⟨hnoted.statisticsOf .unknown g, fun p => Statistics.isShare_selectivity _ p⟩, ?_⟩
    intro m x costs hphysical hcost
    exact (total_le_of_costOf hlog2 hcosted hpassed.settled hnoted hphysical hcost).2
  · exact fun root goal e he =>
      not_isNonMonotonic_of_fails_optimize hlog2 hcosted hrules hstart root goal he

/-- A foreign table that is said to have two and a half rows. -/
def foreignPairs : Table :=
  { schema := "s", name := "t", columns := [⟨"a", .int64, true⟩], rowCount := some 2.5, federated := true,
    rows := [] }

/-- The filtered pairs of its rows are planned so, with a logarithm that is zero everywhere. -/
theorem costs_add_up_foreignPairs :
    ∃ (registry : Registry (Exact fun _ => 0)) (memo : Memo Float), Registry.standard = .ok registry ∧
      (build [foreignPairs] onesFilter).run.run {} = (.ok 2, memo) ∧
      (∀ t ∈ [foreignPairs], ∀ x, t.rowCount = some x → 0 ≤ (Double.ofFloat x).toRat) ∧
      ∀ budget goal e, Fails (Search.optimize ⟨registry, RowWork.standard.model,
        catalogOver [foreignPairs], budget⟩ 2 goal) { memo := memo.reread } e → ¬ e.IsNonMonotonic := by
  have hroot : ((build [foreignPairs] onesFilter).run.run {}).1 = .ok 2 := by decide +kernel
  have hbuild : (build [foreignPairs] onesFilter).run.run {} =
      (.ok 2, ((build [foreignPairs] onesFilter).run.run {}).2) := Prod.ext hroot rfl
  have hrows : ∀ t ∈ [foreignPairs], ∀ x, t.rowCount = some x → 0 ≤ (Double.ofFloat x).toRat := by
    intro t ht x hx
    obtain rfl := List.mem_singleton.mp ht
    obtain rfl := Option.some.inj hx
    decide +kernel
  refine ⟨_, _, Registry.standard_eq, hbuild, hrows, fun budget goal e he => ?_⟩
  obtain ⟨-, -, -, hnever⟩ := costs_add_up (fun _ _ => le_refl 0) Registry.standard_eq hbuild hrows budget
  exact hnever 2 goal e he

end Costs

end Request

end QueryPlanner
