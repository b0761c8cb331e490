/-
# Soundness of the optimizer

Whatever plan a search with the standard registry returns, its code runs and gives the rows that
the logical plan gives when it is evaluated operator by operator as it stands, up to their order.
Neither the costs nor the budget nor a ceiling have a say in it, nor does what the catalog claims.

* `Search.execute_of_optimize` : a plan found in a memo whose groups stand for bags gives the rows
  of the bag of its root;
* `execute_perm_of_build` : a plan found for a logical plan gives the rows of the logical plan.
-/
import QueryPlanner.Proofs.Logical.Resolution
import QueryPlanner.Proofs.Plan.Evaluation
import QueryPlanner.Proofs.Search.Meaning

namespace QueryPlanner

namespace Search

variable {ν : Type} [Quantity ν] {planner : Planner ν} {source : RowSource} {memo : Memo ν}
  {den : GroupId → Bag} {root : GroupId} {goal : Goal ν} {plan : Plan ν}

/-- A plan that is found in a memo whose groups stand for bags can be run, and gives the rows of
the bag of its root. -/
theorem execute_of_optimize (hregistry : Registry.standard = .ok planner.registry)
    (hmemo : memo.Means source den) (hroot : root < memo.groups.size)
    (hgoal : goal.convention ≠ .federated)
    (hplan : ((optimize planner root goal).run.run { memo := memo }).1 = .ok plan) :
    ∃ rows, plan.execute planner.registry source = .ok rows ∧ (den root).Lists rows := by
  obtain ⟨found, hfound⟩ : ∃ t, Returns (optimize planner root goal) { memo := memo } plan t :=
    ⟨_, Prod.ext hplan rfl⟩
  obtain ⟨settled, hkept, hwinners, hextract⟩ := returns_optimize hfound
  have hextends : IsKept planner (Extends source den memo.groups.size) := isKept_extends hregistry
  have hsettled : Extends source den memo.groups.size settled.memo :=
    hkept _ hextends ⟨den, hmemo.continues⟩
  have hled : settled.memo.Led := hextends.led _ hsettled
  obtain ⟨den', hfinal⟩ := hextends.findWinners.of_returns hwinners hsettled
  have hoffered : found.memo.IsOffered := isOffered_findWinners hled hwinners
  obtain ⟨hsound, hgiven⟩ := Memo.isSound_extract hfinal.means hoffered hextract
  obtain ⟨rows, hrows, hlists⟩ := Plan.execute_of_isSound hregistry hsound (by rwa [hgiven])
  refine ⟨rows, hrows, ?_⟩
  rw [hgiven, hfinal.agree root hroot] at hlists
  exact hlists

end Search

variable {tables : List Request.Table} {relation : Request.Relation} {root : GroupId}
  {memo : Memo Float} {planner : Planner Float} {goal : Goal Float} {plan : Plan Float}
  {source : RowSource}

/-- A plan that is found for a logical plan without limits and floats, over rows and expressions of
the declared types, can be run, and gives the rows of the logical plan up to their order. -/
theorem execute_perm_of_build
    (hbuild : (Request.build tables relation).run.run {} = (.ok root, memo))
    (htyped : ∀ logical, relation.logical tables = .ok logical → logical.IsTyped source ∧
      ∀ op ∈ logical.operators, op.kind ≠ .limit ∧ op.IsFloatFree)
    (hregistry : Registry.standard = .ok planner.registry)
    (hgoal : goal.convention ∈ [Convention.iterator, .compiled, .compiledRecord])
    (hplan : ((Search.optimize planner root goal).run.run { memo := memo }).1 = .ok plan) :
    ∃ logical rows expected, relation.logical tables = .ok logical ∧
      plan.execute planner.registry source = .ok rows ∧
      logical.rows source = .ok expected ∧ rows.Perm expected := by
  obtain ⟨-, -, -, logical, hlogical, -⟩ :=
    Request.exists_logical_of_build Memo.derives_empty hbuild
  obtain ⟨hlogicalTyped, hoperators⟩ := htyped logical hlogical
  obtain ⟨b, hb⟩ := LogicalPlan.exists_denotes hlogicalTyped (fun op hop => (hoperators op hop).1)
    fun op hop => (hoperators op hop).2
  -- what the empty memo stands for does not matter
  obtain ⟨den, hmemo, hroot, hden⟩ := Request.means_build (Memo.means_empty fun _ => b) hlogical hb
    hbuild
  have hconvention : goal.convention ≠ .federated := by
    intro heq
    rw [heq] at hgoal
    exact absurd hgoal (by decide)
  obtain ⟨rows, hrows, hlists⟩ := Search.execute_of_optimize hregistry hmemo.means hroot hconvention
    hplan
  obtain ⟨expected, hexpected, hlists'⟩ := hb.rows
  rw [hden] at hlists
  exact ⟨logical, rows, expected, hlogical, hrows, hexpected, hlists.perm hlists'⟩

/-! ## A plan -/

/-- A table of numbers that a foreign source owns. -/
def numbers : Request.Table :=
  { schema := "s", name := "numbers", columns := [⟨"x", .int64, true⟩], rowCount := none,
    federated := true, rows := [] }

/-- A source of two numbers. -/
def twoNumbers : RowSource := ⟨fun _ => .ok [[.int 1], [.int 5]]⟩

/-- The numbers above three. -/
def largeNumbers : Request.Relation :=
  .filter (.binary ">" (.column 0) (.literal (.int 3))) (.scan "s" "numbers")

/-- Whether a number is above three. -/
def isLarge : Expr := .binary .gt (.col "x" 0) (.literal (.int 3))

theorem hasType_isLarge : isLarge.HasType ⟨[⟨"x", .int64, true⟩]⟩ .boolean := by
  intro row hrow
  obtain ⟨v, rest, hv, hrest, rfl⟩ := List.forall₂_cons_left_iff.mp hrow
  cases hrest
  have heval : ∃ w, isLarge.eval [v] = .ok w ∧ DataType.boolean.admits w = true := by
    cases v with
    | null => exact ⟨_, rfl, rfl⟩
    | int n => exact ⟨_, rfl, rfl⟩
    | _ => cases hv
  obtain ⟨w, hw, hadmits⟩ := heval
  refine ⟨Expr.evaluates_binary.mpr ⟨⟨w, hw⟩, Expr.evaluates_column.mpr Nat.one_pos,
    Expr.evaluates_literal _⟩, ?_⟩
  rwa [Expr.value_of_eval hw]

/-- The large ones of the numbers, handed out by generated code: they are fetched, looped over and
filtered there. -/
theorem execute_perm_of_build_largeNumbers :
    ∃ registry memo plan logical rows expected, Registry.standard = .ok registry ∧
      (Request.build [numbers] largeNumbers).run.run {} = (.ok 1, memo) ∧
      ((Search.optimize ⟨registry, RowWork.standard.model, Request.catalog [numbers], {}⟩ 1
        ⟨.compiled, none⟩).run.run { memo := memo }).1 = .ok plan ∧
      largeNumbers.logical [numbers] = .ok logical ∧
      plan.execute registry twoNumbers = .ok rows ∧
      logical.rows twoNumbers = .ok expected ∧ rows.Perm expected := by
  have hroot : ((Request.build [numbers] largeNumbers).run.run {}).1 = .ok 1 := by
    decide +kernel
  have hfound : ((Search.optimize ⟨.builtin, RowWork.standard.model, Request.catalog [numbers], {}⟩ 1
        ⟨.compiled, none⟩).run.run
          { memo := ((Request.build [numbers] largeNumbers).run.run {}).2 }).1.toOption.isSome =
            true := by
    decide +kernel
  -- from here on the memo is only a name, so that nothing evaluates the search again
  obtain ⟨memo, hmemo⟩ : ∃ memo, memo = ((Request.build [numbers] largeNumbers).run.run {}).2 :=
    ⟨_, rfl⟩
  rw [← hmemo] at hfound
  obtain ⟨plan, hplan⟩ := Option.isSome_iff_exists.mp hfound
  have hreturned := returns_of_toOption hplan
  have hlogical : largeNumbers.logical [numbers] =
      .ok (.filter isLarge (.scan ⟨"s", "numbers"⟩ ⟨[⟨"x", .int64, true⟩]⟩)) := rfl
  have hbuild : (Request.build [numbers] largeNumbers).run.run {} = (.ok 1, memo) :=
    Prod.ext hroot hmemo.symm
  have htyped : ∀ logical, largeNumbers.logical [numbers] = .ok logical →
      logical.IsTyped twoNumbers ∧ ∀ op ∈ logical.operators, op.kind ≠ .limit ∧ op.IsFloatFree := by
    intro logical h
    cases hlogical.symm.trans h
    refine ⟨⟨hasType_isLarge, _, rfl, fun row hrow => ?_⟩, fun op hop => ?_⟩
    · rcases List.mem_pair.mp hrow with rfl | rfl
      · exact .cons rfl .nil
      · exact .cons rfl .nil
    · rcases List.mem_pair.mp hop with rfl | rfl
      · refine ⟨OperatorKind.noConfusion, fun x hx => ?_⟩
        simp [isLarge, Expr.col, Expr.parts] at hx
      · exact ⟨OperatorKind.noConfusion, trivial⟩
  obtain ⟨logical, rows, expected, hlogical', hrows, hexpected, hperm⟩ :=
    execute_perm_of_build hbuild htyped Registry.standard_eq (List.mem_cons_of_mem _
      (List.mem_cons_self ..)) (congrArg Prod.fst hreturned)
  exact ⟨_, memo, plan, logical, rows, expected, Registry.standard_eq, hbuild,
    congrArg Prod.fst hreturned, hlogical', hrows, hexpected, hperm⟩

end QueryPlanner
