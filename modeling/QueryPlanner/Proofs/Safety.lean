/-
# Safety of generated code

Code that is generated for a plan never goes wrong for the way it was put together: no variable is
unbound, no cursor is exhausted, no column or field is missing, and no hole is left. Either it gives
rows of the row type of the plan, or an error comes of the values in the rows that it meets, or rows
are to be sorted by keys that contradict each other. Unlike in soundness nothing is asked of the types
of these values.

* `PlanNode.IsFitting` : a node that reads no columns but those of its inputs, in conventions that
  there is code for;
* `PlanNode.delivery` : what a plan hands over, answered operator by operator;
* `Plan.run_generate_eq_delivery` : running a plan of fitting nodes gives just this, and is safe;
* `isFittingExtract_extractBelow` : the nodes of a plan that is extracted from fitting members are
  fitting;
* `run_generate_safe_of_build` : code for the plan that is found for a logical plan is safe.
-/
import QueryPlanner.Proofs.Plan.Evaluation
import QueryPlanner.Proofs.Search.Fitting

namespace QueryPlanner

open Answers

variable {source : RowSource}

/-! ## One node -/

/-- An expression within a row has a value for outcome or an error that comes of values, in every
convention. -/
theorem Expr.IsWithin.isOfValues_outcome {row : Row} {e : Expr} (h : e.IsWithin row.length)
    (c : Convention) : Scalar.Outcome.IsOfValues (c.outcome row e) := by
  unfold Convention.outcome
  split
  · exact h.isOfValues_eval
  · exact h.isOfValues_evalWhole

/-- An operator within the columns of wide inputs reads nothing outside of their rows. -/
theorem Operator.IsWithin.reads_of_isWide {op : Operator} {slots : List Handover}
    (h : op.IsWithin (RowType.widthOfList (slots.map Handover.rowType))) (hlength : slots.length = op.arity)
    (hwide : ∀ d ∈ slots, d.IsWide) : op.Reads slots := by
  cases op with
  | filter p =>
      obtain ⟨d, rfl⟩ := List.length_eq_one_iff.mp hlength
      intro row hrow
      rw [hwide d List.mem_cons_self row hrow]
      exact h.reads p List.mem_cons_self
  | project es t =>
      obtain ⟨d, rfl⟩ := List.length_eq_one_iff.mp hlength
      refine ⟨h.full, fun row hrow => ?_⟩
      rw [hwide d List.mem_cons_self row hrow]
      exact h.reads
  | _ => trivial

section Node

variable {ν : Type}

/-- A node that there is code for, of the row type that is derived for it, which reads no columns but
those of its inputs, and whose own rows are as wide as they should be. -/
structure PlanNode.IsFitting (source : RowSource) (n : PlanNode ν) : Prop where
  implemented : IsImplemented n.op n.convention (n.children.map PlanNode.convention)
  rowType : n.op.deriveRowType (n.children.map PlanNode.rowType) = .ok n.rowType
  within : n.op.IsWithin (RowType.widthOfList (n.children.map PlanNode.rowType))
  supplied : n.op.IsSupplied source

/-! ## What a plan hands over -/

mutual

/-- What a plan hands over: what its operators answer, each over what its inputs hand over. -/
def PlanNode.delivery (source : RowSource) : PlanNode ν → Handover
  | .node _ op c t _ _ children => ⟨t, c, op.answers source c (deliveries source children)⟩

/-- What several plans hand over. -/
def PlanNode.deliveries (source : RowSource) : List (PlanNode ν) → List Handover
  | [] => []
  | n :: rest => n.delivery source :: deliveries source rest

end

namespace PlanNode

theorem deliveries_eq (ns : List (PlanNode ν)) :
    deliveries source ns = ns.map (delivery source) := by
  induction ns with
  | nil => rfl
  | cons n rest ih => rw [deliveries, ih, List.map_cons]

theorem rowType_delivery (n : PlanNode ν) : (n.delivery source).rowType = n.rowType := by
  cases n
  rfl

theorem convention_delivery (n : PlanNode ν) : (n.delivery source).convention = n.convention := by
  cases n
  rfl

/-- A sort that is handed over more than a few rows with keys that contradict each other. -/
def IsContradictory (source : RowSource) (n : PlanNode ν) : Prop :=
  ∃ order child rows, n.op = .sort order ∧ n.children = [child] ∧
    (child.delivery source).answers.bind all = .ok rows ∧ Sorting.insertionLimit < rows.length ∧
      ¬ SortKey.AreCoherent order rows

/-- An error that a plan comes to: one that comes of values, unless a sort in it is contradictory. -/
def FailsWith (source : RowSource) (n : PlanNode ν) (e : ExecutionError) : Prop :=
  e.IsOfValues ∨ e = .contradictoryOrder ∧ ∃ k ∈ n.nodes, k.IsContradictory source

/-- A fragment hands over what a plan does, which is safe. -/
def IsDelivered (source : RowSource) (n : PlanNode ν) (f : Fragment) : Prop :=
  (n.delivery source).IsSafe (n.FailsWith source) ∧ f.HandsOver source (n.delivery source)

/-- What an input of a node comes to, so does the node. -/
theorem FailsWith.of_mem_children {n child : PlanNode ν} (hchild : child ∈ n.children)
    {e : ExecutionError} (h : child.FailsWith source e) : n.FailsWith source e := by
  refine h.imp_right fun ⟨he, k, hk, hcontradictory⟩ => ⟨he, k, ?_, hcontradictory⟩
  obtain ⟨id, op, c, t, cost, rows, children⟩ := n
  rw [nodes, nodesOfList_eq]
  exact List.mem_cons_of_mem _ (List.mem_flatMap.mpr ⟨child, hchild, hk⟩)

variable [Quantity ν] {registry : Registry ν}

/-- A fitting node over fragments that hand over what its inputs do hands over what it does. -/
theorem IsFitting.isDelivered (hregistry : Registry.standard = .ok registry) {n : PlanNode ν}
    (h : n.IsFitting source) {inputs : List Fragment}
    (hinputs : List.Forall₂ (IsDelivered source) n.children inputs) (k : Nat) :
    ∃ f k', Returns (n.assemble registry inputs) k f k' ∧ n.IsDelivered source f := by
  have hmono : ∀ child ∈ n.children, ∀ e, child.FailsWith source e → n.FailsWith source e :=
    fun child hchild e => FailsWith.of_mem_children hchild
  have hself : n ∈ n.nodes := mem_nodes_self n
  obtain ⟨id, op, c, t, cost, rows, children⟩ := n
  obtain ⟨himplemented, hrowType, hwithin, hsupplied⟩ := h
  have hconventions : children.map convention =
      (deliveries source children).map Handover.convention := by
    rw [deliveries_eq, List.map_map]
    exact List.map_congr_left fun n _ => (convention_delivery n).symm
  have hrowTypes : children.map PlanNode.rowType =
      (deliveries source children).map Handover.rowType := by
    rw [deliveries_eq, List.map_map]
    exact List.map_congr_left fun n _ => (rowType_delivery n).symm
  change IsImplemented op c (children.map convention) at himplemented
  change op.deriveRowType (children.map PlanNode.rowType) = .ok t at hrowType
  change op.IsWithin (RowType.widthOfList (children.map PlanNode.rowType)) at hwithin
  rw [hconventions] at himplemented
  rw [hrowTypes] at hrowType hwithin
  have hsafe : ∀ d ∈ deliveries source children,
      d.IsSafe (FailsWith source (.node id op c t cost rows children)) := by
    rw [deliveries_eq]
    refine List.forall_mem_map.mpr fun child hchild => ?_
    obtain ⟨f, -, hsafe, -⟩ := exists_mem_of_forall₂ hinputs.flip hchild
    exact hsafe.imp (hmono child hchild)
  have hhands : List.Forall₂ (fun d f => Fragment.HandsOver source d f)
      (deliveries source children) inputs := by
    rw [deliveries_eq]
    exact List.forall₂_map_left_iff.mpr (hinputs.imp fun _ _ h => h.2)
  have hlength := himplemented.length_inputs
  rw [List.length_map] at hlength
  have hwide : ∀ d ∈ deliveries source children, d.IsWide := fun d hd => (hsafe d hd).isWide
  obtain ⟨f, k', hf, hhandsOver⟩ := handsOver_assemble hregistry himplemented hrowType hrowTypes
    hwide (hwithin.reads_of_isWide hlength hwide) hhands k
  refine ⟨f, k', hf, ?_, hhandsOver⟩
  refine Operator.isSafe_answers himplemented hrowType hsupplied hwithin.full hsafe ?_ ?_
  · intro e he row hrow
    rw [← hrow] at hwithin
    exact fun err herr => .inl ((hwithin.reads e he).isOfValues_outcome c err herr)
  · rintro order d rows rfl hslots hrows hmany hnot
    rw [deliveries_eq] at hslots
    obtain ⟨child, rfl⟩ := List.length_eq_one_iff.mp ((congrArg List.length hslots).symm.trans
      (List.length_map _)).symm
    obtain rfl := List.singleton_inj.mp hslots
    exact .inr ⟨rfl, _, hself, order, child, rows, rfl, rfl, hrows, hmany, hnot⟩

end PlanNode

end Node

/-! ## Whole plans -/

variable {ν : Type}

/-- A plan of fitting nodes, with a number each, that is not left with a foreign source. -/
structure Plan.IsFitting (source : RowSource) (plan : Plan ν) : Prop where
  nodes : ∀ n ∈ plan.root.nodes, n.IsFitting source
  ids : ∀ n ∈ plan.root.nodes, ∀ m ∈ plan.root.nodes, n.id = m.id → n = m
  root : plan.root.convention ≠ .federated

/-- Code for a fitting plan can be generated, and no hole is left in it. Running it gives all rows that
the plan hands over, or the first error, and is safe. -/
theorem Plan.run_generate_eq_delivery [Quantity ν] {registry : Registry ν} {plan : Plan ν}
    (hregistry : Registry.standard = .ok registry) (h : plan.IsFitting source) :
    ∃ executable, plan.generate registry = .ok executable ∧ executable.IsFilled ∧
      executable.run source = (plan.root.delivery source).answers.bind all ∧
      (plan.root.delivery source).IsSafe (plan.root.FailsWith source) := by
  have hsame : ∀ n ∈ plan.root.nodes, ∀ m ∈ plan.root.nodes, n.id = m.id → ∀ f,
      n.IsDelivered source f → m.IsDelivered source f := by
    intro n hn m hm hid f hf
    rwa [h.ids n hn m hm hid] at hf
  obtain ⟨f, ⟨hsafe, hhands⟩, hgenerate⟩ := Plan.exists_generate_of_nodes hsame
    fun n hn inputs k hinputs => (h.nodes n hn).isDelivered hregistry hinputs k
  have hroot : (plan.root.delivery source).convention ≠ .federated := by
    rw [PlanNode.convention_delivery]
    exact h.root
  obtain ⟨executable, hclose, hfilled, hrun⟩ := hhands.run hsafe.isWide hroot plan.root.op.display
  exact ⟨executable, hgenerate.trans hclose, hfilled, hrun, hsafe⟩

/-! ## Extracted plans -/

section Extracted

variable {memo : Memo ν}

/-- A node of a fitting member over what was extracted for its inputs is fitting. -/
theorem PlanNode.isFitting_of_member (h : memo.Settled) (hevery : memo.Every (Memo.IsFitting source))
    {m : MemberId} (hm : m < memo.members.size) (hphysical : (memo.member m).isLogical = false)
    {children : List (PlanNode ν)} (hchildren : List.Forall₂ (fun slot n =>
      n.rowType = (memo.group slot.1).rowType ∧ n.convention = slot.2) (memo.member m).slots children)
    (cost rows : ν) :
    (PlanNode.node (memo.member m).id (memo.member m).op (memo.member m).convention
      (memo.group (memo.member m).group).rowType cost rows children).IsFitting source := by
  obtain ⟨hfits, -⟩ := h.member m hm
  obtain ⟨hwithin, hsupplied, himplemented⟩ := hevery m hm
  obtain ⟨hrowTypes, hconventions⟩ := Search.inputs_of_extracts hfits.length_inputs hchildren
  refine ⟨?_, ?_, ?_, hsupplied⟩
  · show IsImplemented _ _ (children.map PlanNode.convention)
    rw [hconventions]
    exact himplemented hphysical
  · show Operator.deriveRowType _ (children.map PlanNode.rowType) = _
    rw [hrowTypes]
    exact hfits.rowType
  · show Operator.IsWithin (RowType.widthOfList (children.map PlanNode.rowType)) _
    rw [hrowTypes]
    exact hwithin

/-- What is known of a node that was extracted for a group in a convention: it is of the row type of
the group and in that convention, and all nodes of its tree are fitting. -/
structure IsFittingExtract (source : RowSource) (memo : Memo ν) (g : GroupId) (c : Convention)
    (n : PlanNode ν) : Prop where
  rowType : n.rowType = (memo.group g).rowType
  convention : n.convention = c
  nodes : ∀ k ∈ n.nodes, k.IsFitting source

variable [Quantity ν]

/-- A plan that is extracted from fitting members is of fitting nodes. -/
theorem isFittingExtract_extractBelow (h : memo.Settled) (hoffered : memo.IsOffered)
    (hevery : memo.Every (Memo.IsFitting source)) {fuel : Nat}
    {above : List (GroupId × Convention)} {g : GroupId} {c : Convention} {n : PlanNode ν}
    (hn : memo.extractBelow fuel above g c = .ok n) : IsFittingExtract source memo g c n := by
  induction fuel generalizing above g c n with
  | zero => cases hn
  | succ fuel ih =>
      obtain ⟨w, children, hw, hchildren, rfl⟩ := Memo.exists_of_extractBelow hn
      obtain ⟨hlisted, hphysical, hconvention⟩ := hoffered _ c w hw
      obtain ⟨-, hm, hgroup⟩ := h.mem_group_iff.mp hlisted
      have hinputs := hchildren.imp fun slot n hn => ih hn
      have hrowType : (memo.group (memo.leader g)).rowType =
          (memo.group (memo.member w.member).group).rowType := by
        rw [hgroup]
        exact (Memo.rowType_congr (h.led.leader_leader _)).symm
      refine ⟨Memo.rowType_congr (h.led.leader_leader g), hconvention, fun k hk => ?_⟩
      rw [PlanNode.nodes, List.mem_cons] at hk
      rcases hk with rfl | hk
      · rw [hrowType]
        exact PlanNode.isFitting_of_member h hevery hm hphysical
          (hinputs.imp fun slot n hn => ⟨hn.rowType, hn.convention⟩) _ _
      · rw [PlanNode.nodesOfList_eq] at hk
        obtain ⟨child, hchild, hk⟩ := List.mem_flatMap.mp hk
        obtain ⟨slot, -, hextract⟩ := exists_mem_of_forall₂ hinputs hchild
        exact hextract.nodes k hk

end Extracted

/-! ## Plans that are found -/

section Found

variable {tables : List Request.Table} {relation : Request.Relation} {root : GroupId}
  {memo : Memo Float} {planner : Planner Float} {goal : Goal Float} {plan : Plan Float}

/-- A plan that is found for a logical plan over rows of the declared widths can be turned into code
without holes. Running it gives rows of the width of the plan, or an error that comes of values, or it
comes to a contradictory sort. -/
theorem run_generate_safe_of_build
    (hbuild : (Request.build tables relation).run.run {} = (.ok root, memo))
    (hsupplied : ∀ logical, relation.logical tables = .ok logical →
      ∀ op ∈ logical.operators, op.IsSupplied source)
    (hregistry : Registry.standard = .ok planner.registry)
    (hgoal : goal.convention ∈ [Convention.iterator, .compiled, .compiledRecord])
    (hplan : ((Search.optimize planner root goal).run.run { memo := memo }).1 = .ok plan) :
    ∃ executable, plan.generate planner.registry = .ok executable ∧ executable.IsFilled ∧
      ((∃ rows, executable.run source = .ok rows ∧
        ∀ row ∈ rows, row.length = plan.root.rowType.width) ∨
      (∃ e, executable.run source = .error e ∧ e.IsOfValues) ∨
      executable.run source = .error .contradictoryOrder ∧
        ∃ n ∈ plan.root.nodes, n.IsContradictory source) := by
  have hrules : ∀ rule ∈ planner.registry.rules, rule.IsRegular planner.catalog :=
    Rule.isRegular_of_eq_standard (Registry.rules_of_standard hregistry)
  obtain ⟨-, -, -, logical, hlogical, -⟩ :=
    Request.exists_logical_of_build Memo.derives_empty hbuild
  obtain ⟨found, hfound⟩ : ∃ t, Returns (Search.optimize planner root goal) { memo := memo } plan t :=
    ⟨_, Prod.ext hplan rfl⟩
  obtain ⟨hbuilt, -, -⟩ := Request.layers_of_build hbuild
  have hstart := hbuilt.isRunning planner
  -- all members that the search ends with are fitting
  obtain ⟨hpasses, u, hu, hwinners⟩ := Search.passes_optimize hrules hstart hfound
  obtain ⟨hended, -⟩ := hstart.passes hrules hpasses
  have hevery : found.memo.Every (Memo.IsFitting source) :=
    every_isFitting_of_passes hregistry hstart hpasses
      (every_isFitting_of_build hbuild hlogical (hsupplied logical hlogical))
  obtain ⟨-, -, -, hextract⟩ := Search.returns_optimize hfound
  have hoffered := Search.isOffered_findWinners hu.settled.led hwinners
  obtain ⟨-, hconvention, hnodes⟩ :=
    isFittingExtract_extractBelow hended.settled hoffered hevery hextract
  have hfitting : plan.IsFitting source := by
    refine ⟨hnodes, Memo.eq_of_id_eq hended.settled.toConsistent hoffered hextract, fun heq => ?_⟩
    rw [hconvention.symm.trans heq] at hgoal
    exact absurd hgoal (by decide)
  obtain ⟨executable, hgenerate, hfilled, hrun, hsafe⟩ :=
    Plan.run_generate_eq_delivery hregistry hfitting
  refine ⟨executable, hgenerate, hfilled, ?_⟩
  rw [hrun]
  rcases hsafe.all with ⟨rows, hrows, hwide⟩ | ⟨e, he, hvalues | ⟨rfl, hcontradictory⟩⟩
  · rw [PlanNode.rowType_delivery] at hwide
    exact .inl ⟨rows, hrows, hwide⟩
  · exact .inr (.inl ⟨e, he, hvalues⟩)
  · exact .inr (.inr ⟨he, hcontradictory⟩)

end Found

/-! ## A plan -/

/-- A local table of divisors. -/
def divisors : Request.Table :=
  { schema := "s", name := "divisors", columns := [⟨"x", .int64, true⟩], rowCount := none,
    federated := false, rows := [] }

/-- A source of two divisors, one of which is zero. -/
def zeroAndFive : RowSource := ⟨fun _ => .ok [[.int 0], [.int 5]]⟩

/-- Ten, divided by each of the divisors. -/
def quotients : Request.Relation :=
  .project [⟨"q", .int64, .binary "/" (.literal (.int 10)) (.column 0)⟩] (.scan "s" "divisors")

/-- The quotients as records: code for them can be generated, and running it fails for the zero among
the divisors. -/
theorem run_generate_safe_of_build_quotients :
    ∃ registry memo plan executable, Registry.standard = .ok registry ∧
      (Request.build [divisors] quotients).run.run {} = (.ok 1, memo) ∧
      ((Search.optimize ⟨registry, RowWork.standard.model, Request.catalog [divisors], {}⟩ 1
        ⟨.compiledRecord, none⟩).run.run { memo := memo }).1 = .ok plan ∧
      plan.generate registry = .ok executable ∧ executable.IsFilled ∧
      executable.run zeroAndFive = .error .divisionByZero := by
  have hroot : ((Request.build [divisors] quotients).run.run {}).1 = .ok 1 := by
    decide +kernel
  have hrun : (((Search.optimize ⟨.builtin, RowWork.standard.model, Request.catalog [divisors], {}⟩ 1
        ⟨.compiledRecord, none⟩).run.run
          { memo := ((Request.build [divisors] quotients).run.run {}).2 }).1.toOption.map fun plan =>
            plan.execute .builtin zeroAndFive) = some (.error .divisionByZero) := by
    decide +kernel
  -- from here on the memo is only a name, so that nothing evaluates the search again
  obtain ⟨memo, hmemo⟩ : ∃ memo, memo = ((Request.build [divisors] quotients).run.run {}).2 :=
    ⟨_, rfl⟩
  rw [← hmemo] at hrun
  obtain ⟨plan, hplan, hexecute⟩ := Option.map_eq_some_iff.mp hrun
  have hreturned := congrArg Prod.fst (returns_of_toOption hplan)
  have hbuild : (Request.build [divisors] quotients).run.run {} = (.ok 1, memo) :=
    Prod.ext hroot hmemo.symm
  have hsupplied : ∀ logical, quotients.logical [divisors] = .ok logical →
      ∀ op ∈ logical.operators, op.IsSupplied zeroAndFive := by
    intro logical hlogical op hop
    cases hlogical
    rcases List.mem_pair.mp hop with rfl | rfl
    · trivial
    · exact ⟨_, rfl, by decide⟩
  obtain ⟨executable, hgenerate, hfilled, -⟩ :=
    run_generate_safe_of_build hbuild hsupplied Registry.standard_eq (by decide) hreturned
  refine ⟨_, memo, plan, executable, Registry.standard_eq, hbuild, hreturned, hgenerate, hfilled, ?_⟩
  rw [Plan.execute, hgenerate] at hexecute
  exact hexecute

/-- A local table in whose only column there are values of two kinds. -/
def mixed : Request.Table :=
  { schema := "s", name := "mixed", columns := [⟨"x", .int64, true⟩], rowCount := none,
    federated := false, rows := [] }

/-- More than a few rows of it, with a text between larger and smaller numbers. -/
def mixedRows : RowSource := ⟨fun _ => .ok ([[.int 3]] ++ List.replicate 8 [.int 2] ++ [[.text "z"]] ++
  List.replicate 11 [.int 1])⟩

/-- The rows, sorted by their only column. -/
def sortedMixed : Request.Relation := .sort [⟨.column 0, true, true⟩] (.scan "s" "mixed")

/-- Rows of the declared width that are sorted by a column with values of two kinds: code for this can be
generated, and running it ends in an order that contradicts itself. -/
theorem not_run_generate_safe_of_build_mixed :
    ∃ registry memo plan executable, Registry.standard = .ok registry ∧
      (Request.build [mixed] sortedMixed).run.run {} = (.ok 1, memo) ∧
      (∀ logical, sortedMixed.logical [mixed] = .ok logical →
        ∀ op ∈ logical.operators, op.IsSupplied mixedRows) ∧
      ((Search.optimize ⟨registry, RowWork.standard.model, Request.catalog [mixed], {}⟩ 1
        ⟨.iterator, none⟩).run.run { memo := memo }).1 = .ok plan ∧
      plan.generate registry = .ok executable ∧
      executable.run mixedRows = .error .contradictoryOrder := by
  have hroot : ((Request.build [mixed] sortedMixed).run.run {}).1 = .ok 1 := by
    decide +kernel
  have hrun : (((Search.optimize ⟨.builtin, RowWork.standard.model, Request.catalog [mixed], {}⟩ 1
        ⟨.iterator, none⟩).run.run
          { memo := ((Request.build [mixed] sortedMixed).run.run {}).2 }).1.toOption.map fun plan =>
            plan.execute .builtin mixedRows) = some (.error .contradictoryOrder) := by
    decide +kernel
  obtain ⟨memo, hmemo⟩ : ∃ memo, memo = ((Request.build [mixed] sortedMixed).run.run {}).2 :=
    ⟨_, rfl⟩
  rw [← hmemo] at hrun
  obtain ⟨plan, hplan, hexecute⟩ := Option.map_eq_some_iff.mp hrun
  have hreturned := congrArg Prod.fst (returns_of_toOption hplan)
  have hsupplied : ∀ logical, sortedMixed.logical [mixed] = .ok logical →
      ∀ op ∈ logical.operators, op.IsSupplied mixedRows := by
    intro logical hlogical op hop
    cases hlogical
    rcases List.mem_pair.mp hop with rfl | rfl
    · trivial
    · exact ⟨_, rfl, by decide⟩
  obtain ⟨executable, hgenerate, hfails⟩ := Plan.exists_generate_of_execute hexecute nofun
  exact ⟨_, memo, plan, executable, Registry.standard_eq, Prod.ext hroot hmemo.symm, hsupplied,
    hreturned, hgenerate, hfails⟩

end QueryPlanner
