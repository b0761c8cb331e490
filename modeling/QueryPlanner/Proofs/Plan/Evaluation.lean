/-
# Plans over rows

What a plan gives, evaluated operator by operator on lists of rows, has nothing to do with the
conventions that its nodes are in. Where the tables are known, all expressions evaluate on the rows
that they meet, and rows are sorted by coherent values, code that is generated for a plan gives the
same rows, in the same order, whatever mix of conventions the plan is of. For a sound plan these are
rows of the bag of its root.

* `exists_handsOver` : one node, over inputs that hand over rows;
* `Plan.execute_of_isSound` : running a sound plan gives rows of the bag of its root;
* `PlanNode.Yields` : the rows of a plan;
* `Plan.run_generate_yields` : running a plan gives its rows.
-/
import QueryPlanner.Proofs.Plan.Generation
import QueryPlanner.Proofs.Plan.Widths

namespace QueryPlanner

open Answers

variable {source : RowSource}

/-! ## One node -/

section Node

variable {op : Operator} {c : Convention} {t : RowType}
  {slots : List (Convention × RowType × List Row)}

/-- Rows that are as wide as their row type. -/
theorem isWide_ofRows {rows : List Row}
    (h : ∀ row ∈ rows, row.length = t.width) : (Handover.ofRows (c, t, rows)).IsWide := by
  intro row hrow
  obtain ⟨row', hrow', heq⟩ := List.mem_map.mp hrow
  cases heq
  exact h row hrow'

/-- An operator whose expressions evaluate on rows reads nothing outside of them. -/
theorem Operator.reads_of_evaluatesOn (hlength : slots.length = op.arity) (hfull : op.IsFull)
    (h : op.EvaluatesOn (slots.map Prod.snd)) : op.Reads (slots.map Handover.ofRows) := by
  -- the rows among the answers are the rows that are handed over
  have hmem : ∀ {rows : List Row} {row : Row}, .ok row ∈ (rows.map .ok : Answers) → row ∈ rows := by
    intro rows row hrow
    obtain ⟨row', hrow', heq⟩ := List.mem_map.mp hrow
    cases heq
    exact hrow'
  cases op with
  | filter p =>
      obtain ⟨⟨d, u, rows⟩, rfl⟩ := List.length_eq_one_iff.mp hlength
      exact fun row hrow => (h row (hmem hrow)).index_lt
  | project es out =>
      obtain ⟨⟨d, u, rows⟩, rfl⟩ := List.length_eq_one_iff.mp hlength
      exact ⟨hfull, fun row hrow e he => (h row (hmem hrow) e he).index_lt⟩
  | _ => trivial

variable {ν : Type} [Quantity ν] {registry : Registry ν} {id : Nat} {cost rows : ν}
  {children : List (PlanNode ν)} {inputs : List Fragment}

/-- The fragment of a node over fragments that hand over rows hands over what the operator makes of
the rows, if all of its expressions evaluate on them, and if they can be sorted where it sorts them. -/
theorem exists_handsOver (hregistry : Registry.standard = .ok registry)
    (himplemented : IsImplemented op c (slots.map Prod.fst))
    (htype : op.deriveRowType (slots.map fun s => s.2.1) = .ok t)
    (htypes : children.map PlanNode.rowType = slots.map fun s => s.2.1)
    (hsupplied : op.IsSupplied source) (hfull : op.IsFull)
    (hevaluates : op.EvaluatesOn (slots.map Prod.snd))
    (hcoherent : op.IsCoherentOn (slots.map Prod.snd))
    (hwide : ∀ s ∈ slots, (Handover.ofRows s).IsWide)
    (hinputs : List.Forall₂ (fun s f => f.HandsOver source (Handover.ofRows s)) slots inputs)
    (n : Nat) :
    ∃ out f n', op.Makes source (slots.map Prod.snd) out ∧
      Returns (PlanNode.assemble registry (.node id op c t cost rows children) inputs) n f n' ∧
      f.HandsOver source (Handover.ofRows (c, t, out)) ∧ (Handover.ofRows (c, t, out)).IsWide := by
  have hlength := himplemented.length_inputs
  rw [List.length_map] at hlength
  obtain ⟨out, hmakes, hout⟩ := Operator.exists_makes himplemented hsupplied hevaluates hcoherent
  have hconventions : (slots.map Handover.ofRows).map Handover.convention = slots.map Prod.fst :=
    List.map_map
  have hrowTypes : (slots.map Handover.ofRows).map Handover.rowType = slots.map fun s => s.2.1 :=
    List.map_map
  rw [← hconventions] at himplemented
  rw [← hrowTypes] at htype htypes
  have hslots : ∀ d ∈ slots.map Handover.ofRows, d.IsWide := List.forall_mem_map.mpr hwide
  have hanswers : (⟨t, c, op.answers source c (slots.map Handover.ofRows)⟩ : Handover) =
      Handover.ofRows (c, t, out) := by
    rw [hout]
    rfl
  obtain ⟨f, n', hf, hhands⟩ := handsOver_assemble hregistry himplemented htype htypes hslots
    (Operator.reads_of_evaluatesOn hlength hfull hevaluates) (List.forall₂_map_left_iff.mpr hinputs) n
  have hsafe := Operator.isSafe_answers himplemented htype hsupplied hfull
    (fun d hd => (hslots d hd).isSafe) (fun _ _ _ _ _ _ => trivial) fun _ _ _ _ _ _ _ _ => trivial
  rw [hanswers] at hhands hsafe
  exact ⟨out, f, n', hmakes, hf, hhands, hsafe.isWide⟩

end Node

/-! ## Plans over bags -/

section Bags

variable {ν : Type} [Quantity ν] {registry : Registry ν} {given : Nat → Bag × Convention}

/-- What an operator makes of rows of bags are rows of the bag that it denotes over them. Its
expressions evaluate on them, and to coherent values where it sorts them. -/
theorem Operator.Denotes.makes {op : Operator} {bags : List Bag} {out : Bag}
    (h : Operator.Denotes source op bags out) {inputs : List (RowType × List Row)}
    (hinputs : List.Forall₂ (fun b s => s.1 = b.rowType ∧ b.Lists s.2) bags inputs) :
    (∀ rows, op.Makes source inputs rows → out.Lists rows) ∧ op.EvaluatesOn inputs ∧
      op.IsCoherentOn inputs ∧ op.IsSupplied source ∧ op.IsFull := by
  have hsingle : ∀ {b : Bag}, bags = [b] → ∃ rows, inputs = [(b.rowType, rows)] ∧ b.Lists rows := by
    rintro b rfl
    obtain ⟨⟨u, rows⟩, _, ⟨rfl, hrows⟩, hnil, rfl⟩ := List.forall₂_cons_left_iff.mp hinputs
    cases hnil
    exact ⟨rows, rfl, hrows⟩
  cases h with
  | values admits =>
      cases hinputs
      refine ⟨fun _ hmakes => ?_, trivial, trivial, fun row hrow => (admits row hrow).length_eq,
        trivial⟩
      cases hmakes
      rfl
  | scan supplied admits =>
      cases hinputs
      refine ⟨fun _ hmakes => ?_, trivial, trivial,
        ⟨_, supplied, fun row hrow => (admits row hrow).length_eq⟩, trivial⟩
      cases hmakes with
      | scan supplied' =>
          cases supplied.symm.trans supplied'
          rfl
  | filter typed =>
      obtain ⟨rows, rfl, hrows⟩ := hsingle rfl
      refine ⟨fun _ hmakes => ?_, fun row hrow => typed.evaluates (hrows.admits row hrow), trivial,
        trivial, trivial⟩
      cases hmakes
      exact hrows.filter _
  | project typed =>
      obtain ⟨rows, rfl, hrows⟩ := hsingle rfl
      refine ⟨fun _ hmakes => ?_, fun row hrow e he => ?_, trivial, trivial, typed.length_eq⟩
      · cases hmakes
        exact hrows.project typed
      · obtain ⟨type, htype⟩ := Bag.Projects.exists_type typed e he
        exact htype.evaluates (hrows.admits row hrow)
  | @join type condition l r typed =>
      obtain ⟨⟨u, ls⟩, _, ⟨rfl, hls⟩, hrest, rfl⟩ := List.forall₂_cons_left_iff.mp hinputs
      obtain ⟨⟨u', rs⟩, _, ⟨rfl, hrs⟩, hnil, rfl⟩ := List.forall₂_cons_left_iff.mp hrest
      cases hnil
      refine ⟨fun _ hmakes => ?_, fun left hleft right hright => ?_, trivial, trivial, trivial⟩
      · cases hmakes
        exact hls.join hrs type condition
      · exact typed.evaluates ((hls.admits left hleft).append (hrs.admits right hright) _)
  | sort typed =>
      obtain ⟨rows, rfl, hrows⟩ := hsingle rfl
      refine ⟨fun _ hmakes => ?_, fun row hrow k hk => ?_,
        SortKey.areCoherent_of_typed typed hrows.admits, trivial, trivial⟩
      · cases hmakes with
        | sort sorts => exact hrows.of_perm sorts.perm
      · obtain ⟨type, htype⟩ := typed k hk
        exact htype.evaluates (hrows.admits row hrow)
  | converter =>
      obtain ⟨rows, rfl, hrows⟩ := hsingle rfl
      refine ⟨fun _ hmakes => ?_, trivial, trivial, trivial, trivial⟩
      cases hmakes
      exact hrows

/-- The rows of a bag are as wide as its row type. -/
theorem Bag.Lists.isWide {b : Bag} {rows : List Row} (h : b.Lists rows) (c : Convention) :
    (Handover.ofRows (c, b.rowType, rows)).IsWide :=
  isWide_ofRows fun row hrow => (h.admits row hrow).length_eq

/-- A fragment that hands over rows of a bag. -/
def Fragment.Delivers (source : RowSource) (slot : Bag × Convention) (f : Fragment) : Prop :=
  ∃ rows, slot.1.Lists rows ∧ f.HandsOver source (.ofRows (slot.2, slot.1.rowType, rows))

/-- Fragments that hand over rows of bags hand over some rows each. -/
theorem exists_rows {slots : List (Bag × Convention)} {inputs : List Fragment}
    (h : List.Forall₂ (fun slot f => Fragment.Delivers source slot f) slots inputs) :
    ∃ rows : List (Convention × RowType × List Row),
      rows.map Prod.fst = slots.map Prod.snd ∧
      (rows.map fun s => s.2.1) = slots.map (fun slot => slot.1.rowType) ∧
      List.Forall₂ (fun b s => s.1 = b.rowType ∧ b.Lists s.2) (slots.map Prod.fst)
        (rows.map Prod.snd) ∧
      (∀ s ∈ rows, (Handover.ofRows s).IsWide) ∧
      List.Forall₂ (fun s f => f.HandsOver source (Handover.ofRows s)) rows inputs := by
  induction h with
  | nil => exact ⟨[], rfl, rfl, .nil, nofun, .nil⟩
  | @cons slot f _ _ hf _ ih =>
      obtain ⟨given, hlists, hhands⟩ := hf
      obtain ⟨rows, hconventions, hrowTypes, hbags, hwide, hinputs⟩ := ih
      refine ⟨(slot.2, slot.1.rowType, given) :: rows, ?_, ?_, .cons ⟨rfl, hlists⟩ hbags,
        List.forall_mem_cons.mpr ⟨hlists.isWide slot.2, hwide⟩, .cons hhands hinputs⟩
      · rw [List.map_cons, List.map_cons, hconventions]
      · rw [List.map_cons, List.map_cons, hrowTypes]

/-- All nodes of a sound plan are sound. -/
theorem PlanNode.IsSound.of_mem_nodes {ν : Type} {n m : PlanNode ν} (h : n.IsSound source given)
    (hm : m ∈ n.nodes) : m.IsSound source given := by
  induction h with
  | node convention rowType denotes implemented inputs ih =>
      rw [nodes, nodesOfList_eq, List.mem_cons, List.mem_flatMap] at hm
      rcases hm with rfl | ⟨child, hchild, hm⟩
      · exact .node convention rowType denotes implemented inputs
      · exact ih child hchild hm

/-- A sound node over fragments that deliver the bags of its inputs delivers its own bag. -/
theorem PlanNode.IsSound.isAssembled (hregistry : Registry.standard = .ok registry)
    {n : PlanNode ν} (h : n.IsSound source given) :
    n.IsAssembled registry fun id f => Fragment.Delivers source (given id) f := by
  intro inputs k hinputs
  cases h with
  | @node id op c t cost rows children convention rowType denotes implemented sound =>
      have hdelivers : List.Forall₂ (fun slot f => Fragment.Delivers source slot f)
          (children.map fun n => given n.id) inputs := List.forall₂_map_left_iff.mpr hinputs
      obtain ⟨slots, hconventions, hrowTypes, hbags, hwide, hslots⟩ := exists_rows hdelivers
      rw [List.map_map] at hconventions hrowTypes hbags
      obtain ⟨hlists, hevaluates, hcoherent, hsupplied, hfull⟩ := denotes.makes hbags
      have himplemented : IsImplemented op c (slots.map Prod.fst) := by
        rw [List.map_congr_left fun n hn => (sound n hn).convention_eq] at implemented
        rw [hconventions]
        exact implemented
      have htypes : children.map PlanNode.rowType = slots.map fun s => s.2.1 := by
        rw [hrowTypes]
        exact List.map_congr_left fun n hn => (sound n hn).rowType_eq
      have htype : op.deriveRowType (slots.map fun s => s.2.1) = .ok t := by
        have hderived := denotes.deriveRowType
        rw [List.map_map] at hderived
        rw [hrowTypes, rowType]
        exact hderived
      obtain ⟨out, f, k', hmakes, hf, hhands, -⟩ := exists_handsOver hregistry himplemented htype
        htypes hsupplied hfull hevaluates hcoherent hwide hslots k
      refine ⟨f, k', hf, out, hlists out hmakes, ?_⟩
      rw [convention, rowType] at hhands
      exact hhands

/-- A sound plan whose root is not left with a foreign source can be run, and gives the rows of
the bag that its root stands for. -/
theorem Plan.execute_of_isSound (hregistry : Registry.standard = .ok registry) {plan : Plan ν}
    (h : plan.root.IsSound source given) (hroot : (given plan.root.id).2 ≠ .federated) :
    ∃ rows, plan.execute registry source = .ok rows ∧ (given plan.root.id).1.Lists rows := by
  obtain ⟨f, ⟨rows, hlists, hhands⟩, hgenerate⟩ :=
    Plan.exists_generate fun n hn => (h.of_mem_nodes hn).isAssembled hregistry
  obtain ⟨executable, hclose, -, hrun⟩ :=
    hhands.run (hlists.isWide _) hroot plan.root.op.display
  refine ⟨rows, ?_, hlists⟩
  rw [Plan.execute, hgenerate, hclose]
  exact hrun.trans (all_map_ok rows)

end Bags

/-! ## Plans over rows -/

section Rows

variable {ν : Type}

mutual

/-- The rows of a plan, evaluated operator by operator. -/
def PlanNode.Yields (source : RowSource) : PlanNode ν → List Row → Prop
  | .node _ op _ _ _ _ children, rows =>
      ∃ inputs, YieldsList source children inputs ∧ op.Makes source inputs rows

/-- The rows of several plans, beside their row types. -/
def PlanNode.YieldsList (source : RowSource) :
    List (PlanNode ν) → List (RowType × List Row) → Prop
  | [], inputs => inputs = []
  | n :: rest, inputs => ∃ rows others, n.Yields source rows ∧ YieldsList source rest others ∧
      inputs = (n.rowType, rows) :: others

end

mutual

/-- A plan yields one list of rows. -/
theorem PlanNode.Yields.unique : ∀ (n : PlanNode ν) {rows rows' : List Row},
    n.Yields source rows → n.Yields source rows' → rows = rows'
  | .node _ _ _ _ _ _ children, rows, rows', h, h' => by
      rw [Yields] at h h'
      obtain ⟨inputs, hinputs, hmakes⟩ := h
      obtain ⟨inputs', hinputs', hmakes'⟩ := h'
      obtain rfl := YieldsList.unique children hinputs hinputs'
      exact hmakes.unique hmakes'

theorem PlanNode.YieldsList.unique : ∀ (ns : List (PlanNode ν)) {inputs inputs' : List (RowType × List Row)},
    YieldsList source ns inputs → YieldsList source ns inputs' → inputs = inputs'
  | [], inputs, inputs', h, h' => by
      rw [YieldsList] at h h'
      rw [h, h']
  | n :: rest, inputs, inputs', h, h' => by
      rw [YieldsList] at h h'
      obtain ⟨rows, others, hrows, hothers, rfl⟩ := h
      obtain ⟨rows', others', hrows', hothers', rfl⟩ := h'
      rw [Yields.unique n hrows hrows', YieldsList.unique rest hothers hothers']

end

/-- A node that there is code for, of the row type that is derived for it, whose own rows are as wide
as that, and whose expressions evaluate on the rows that it meets. -/
structure PlanNode.IsRunnable (source : RowSource) (n : PlanNode ν) : Prop where
  implemented : IsImplemented n.op n.convention (n.children.map PlanNode.convention)
  rowType : n.op.deriveRowType (n.children.map PlanNode.rowType) = .ok n.rowType
  full : n.op.IsFull
  supplied : n.op.IsSupplied source
  evaluates : ∀ inputs, YieldsList source n.children inputs → n.op.EvaluatesOn inputs

/-- Where a node sorts the rows that it meets, the values of each key are coherent. -/
def PlanNode.IsCoherent (source : RowSource) (n : PlanNode ν) : Prop :=
  ∀ inputs, YieldsList source n.children inputs → n.op.IsCoherentOn inputs

/-- A fragment hands over the rows of a node, which are as wide as their row type. -/
def PlanNode.IsHandedOver (source : RowSource) (n : PlanNode ν) (f : Fragment) : Prop :=
  ∃ rows, n.Yields source rows ∧
    f.HandsOver source (Handover.ofRows (n.convention, n.rowType, rows)) ∧
    (Handover.ofRows (n.convention, n.rowType, rows)).IsWide

/-- Fragments that hand over the rows of nodes hand over what these yield. -/
theorem exists_yields {children : List (PlanNode ν)} {inputs : List Fragment}
    (h : List.Forall₂ (PlanNode.IsHandedOver source) children inputs) :
    ∃ slots : List (Convention × RowType × List Row),
      slots.map Prod.fst = children.map PlanNode.convention ∧
      (slots.map fun s => s.2.1) = children.map PlanNode.rowType ∧
      PlanNode.YieldsList source children (slots.map Prod.snd) ∧
      (∀ s ∈ slots, (Handover.ofRows s).IsWide) ∧
      List.Forall₂ (fun s f => f.HandsOver source (Handover.ofRows s)) slots inputs := by
  induction h with
  | nil => exact ⟨[], rfl, rfl, rfl, nofun, .nil⟩
  | @cons child f _ _ hf _ ih =>
      obtain ⟨rows, hyields, hhands, hwide⟩ := hf
      obtain ⟨slots, hconventions, hrowTypes, hall, hwides, hslots⟩ := ih
      refine ⟨(child.convention, child.rowType, rows) :: slots, ?_, ?_, ?_,
        List.forall_mem_cons.mpr ⟨hwide, hwides⟩, .cons hhands hslots⟩
      · rw [List.map_cons, List.map_cons, hconventions]
      · rw [List.map_cons, List.map_cons, hrowTypes]
      · rw [PlanNode.YieldsList]
        exact ⟨rows, _, hyields, hall, rfl⟩

variable [Quantity ν] {registry : Registry ν} {plan : Plan ν}

/-- A runnable node over fragments that hand over the rows of its inputs hands over its own, if these
can be sorted where it sorts them. -/
theorem PlanNode.IsRunnable.assemble (hregistry : Registry.standard = .ok registry)
    {n : PlanNode ν} (h : n.IsRunnable source) (hcoherent : n.IsCoherent source)
    {inputs : List Fragment} (hinputs : List.Forall₂ (PlanNode.IsHandedOver source) n.children inputs)
    (k : Nat) : ∃ f k', Returns (n.assemble registry inputs) k f k' ∧ n.IsHandedOver source f := by
  obtain ⟨slots, hconventions, hrowTypes, hyields, hwide, hslots⟩ := exists_yields hinputs
  obtain ⟨himplemented, hrowType, hfull, hsupplied, hevaluates⟩ := h
  replace hevaluates := hevaluates _ hyields
  replace hcoherent := hcoherent _ hyields
  rw [← hconventions] at himplemented
  rw [← hrowTypes] at hrowType
  obtain ⟨id, op, c, t, cost, rows, children⟩ := n
  obtain ⟨out, f, k', hmakes, hf, hhands, hwideOut⟩ := exists_handsOver hregistry himplemented
    hrowType hrowTypes.symm hsupplied hfull hevaluates hcoherent hwide hslots k
  refine ⟨f, k', hf, out, ?_, hhands, hwideOut⟩
  rw [PlanNode.Yields]
  exact ⟨_, hyields, hmakes⟩

/-- Code for a plan of runnable nodes can be generated, whatever conventions they are in, if nodes of
one number are the same. If rows are sorted by coherent values, running it gives exactly the rows of
the plan, in order. -/
theorem Plan.run_generate_yields (hregistry : Registry.standard = .ok registry)
    (hnodes : ∀ n ∈ plan.root.nodes, n.IsRunnable source)
    (hcoherent : ∀ n ∈ plan.root.nodes, n.IsCoherent source)
    (hids : ∀ n ∈ plan.root.nodes, ∀ m ∈ plan.root.nodes, n.id = m.id → n = m)
    (hroot : plan.root.convention ∈ [Convention.iterator, .compiled, .compiledRecord]) :
    ∃ executable rows, plan.generate registry = .ok executable ∧ executable.run source = .ok rows ∧
      plan.root.Yields source rows ∧ ∀ rows', plan.root.Yields source rows' → rows' = rows := by
  have hsame : ∀ n ∈ plan.root.nodes, ∀ m ∈ plan.root.nodes, n.id = m.id → ∀ f,
      n.IsHandedOver source f → m.IsHandedOver source f := by
    intro n hn m hm hid f hf
    rwa [hids n hn m hm hid] at hf
  obtain ⟨f, ⟨rows, hyields, hhands, hwide⟩, hgenerate⟩ := Plan.exists_generate_of_nodes hsame
    fun n hn inputs k hinputs => (hnodes n hn).assemble hregistry (hcoherent n hn) hinputs k
  have hconvention : plan.root.convention ≠ .federated := by
    intro heq
    rw [heq] at hroot
    exact absurd hroot (by decide)
  obtain ⟨executable, hclose, -, hrun⟩ := hhands.run hwide hconvention plan.root.op.display
  exact ⟨executable, rows, hgenerate.trans hclose, hrun.trans (all_map_ok _), hyields,
    fun rows' hyields' => PlanNode.Yields.unique _ hyields' hyields⟩

end Rows

/-- Where running a plan ends otherwise than for want of code, there is code, which is run. -/
theorem Plan.exists_generate_of_execute {ν : Type} {registry : Registry ν} {plan : Plan ν}
    {x : Except ExecutionError (List Row)} (h : plan.execute registry source = x)
    (hx : ∀ e, x ≠ .error (.code e)) :
    ∃ executable, plan.generate registry = .ok executable ∧ executable.run source = x := by
  rw [execute] at h
  split at h
  · next executable hgenerate => exact ⟨executable, hgenerate, h⟩
  · exact absurd h.symm (hx _)

/-! ## A plan -/

/-- A foreign source of two numbers. -/
def oneAndFive : RowSource := ⟨fun _ => .ok [[.int 1], [.int 5]]⟩

/-- The numbers, fetched from the source that owns them. -/
def fetchedNumbers : PlanNode Float :=
  .node 1 (.converter .federated) .iterator ⟨[⟨"x", .int64, true⟩]⟩ 0 0
    [.node 0 (.scan ⟨"s", "numbers"⟩ ⟨[⟨"x", .int64, true⟩]⟩) .federated ⟨[⟨"x", .int64, true⟩]⟩ 0 0
      []]

/-- The numbers, the largest one first. -/
def sortedNumbers : PlanNode Float :=
  .node 2 (.sort [⟨.col "x" 0, false, false⟩]) .iterator ⟨[⟨"x", .int64, true⟩]⟩ 0 0 [fetchedNumbers]

/-- Whether the first one of two numbers is not the larger one. -/
def isAscending : Expr := .binary .ltEq (.col "x" 0) (.col "x" 1)

/-- Pairs of numbers in ascending order, as records: generated code loops over the sorted numbers, and
over the numbers as they come for each of them. -/
def ascendingPairs : Plan Float where
  root := .node 5 (.converter .compiled) .compiledRecord
    ⟨[⟨"x", .int64, true⟩, ⟨"x", .int64, true⟩]⟩ 0 0
    [.node 4 (.join .inner isAscending) .compiled ⟨[⟨"x", .int64, true⟩, ⟨"x", .int64, true⟩]⟩ 0 0
      [.node 3 (.converter .iterator) .compiled ⟨[⟨"x", .int64, true⟩]⟩ 0 0 [sortedNumbers],
        fetchedNumbers]]
  truncated := false

/-- Nodes of one number are the same if the first of its number is the only one. -/
theorem eq_of_find? {ν : Type} {ns : List (PlanNode ν)}
    (h : ∀ n ∈ ns, ns.find? (fun m => m.id == n.id) = some n) :
    ∀ n ∈ ns, ∀ m ∈ ns, n.id = m.id → n = m := by
  intro n hn m hm hid
  have hm' := h m hm
  rw [← hid, h n hn] at hm'
  exact Option.some.inj hm'

/-- What is yielded for one node is what is yielded for it alone, beside its row type. -/
theorem yieldsList_singleton {ν : Type} {n : PlanNode ν} {inputs : List (RowType × List Row)}
    (h : PlanNode.YieldsList source [n] inputs) :
    ∃ rows, n.Yields source rows ∧ inputs = [(n.rowType, rows)] := by
  rw [PlanNode.YieldsList] at h
  obtain ⟨rows, others, hrows, hothers, rfl⟩ := h
  rw [PlanNode.YieldsList] at hothers
  exact ⟨rows, hrows, by rw [hothers]⟩

/-- Sorted or not, the numbers are numbers. -/
theorem yields_numbers {rows : List Row}
    (h : fetchedNumbers.Yields oneAndFive rows ∨ sortedNumbers.Yields oneAndFive rows) :
    ∀ row ∈ rows, ∃ n, row = [.int n] := by
  have hfetched : ∀ {rows : List Row}, fetchedNumbers.Yields oneAndFive rows →
      rows = [[.int 1], [.int 5]] := fun h =>
    PlanNode.Yields.unique _ h ⟨_, ⟨_, _, ⟨_, rfl, .scan rfl⟩, rfl, rfl⟩, .converter⟩
  have hnumbers : ∀ row ∈ [[Scalar.int 1], [.int 5]], ∃ n, row = [Scalar.int n] :=
    List.forall_mem_cons.mpr ⟨⟨1, rfl⟩, List.forall_mem_singleton.mpr ⟨5, rfl⟩⟩
  rcases h with h | h
  · rwa [hfetched h]
  · obtain ⟨inputs, hinputs, hmakes⟩ := h
    obtain ⟨rows', hrows', rfl⟩ := yieldsList_singleton hinputs
    cases hmakes with
    | sort sorts =>
        intro row hrow
        have hmem := sorts.perm.mem_iff.mp hrow
        rw [hfetched hrows'] at hmem
        exact hnumbers row hmem

/-- The nodes of the plan, with those of the numbers twice. -/
theorem nodes_ascendingPairs : ∃ joined looped scanned, ascendingPairs.root.nodes =
    [ascendingPairs.root, joined, looped, sortedNumbers, fetchedNumbers, scanned, fetchedNumbers,
      scanned] ∧
    (joined.IsRunnable oneAndFive ∧ joined.IsCoherent oneAndFive) ∧
    (looped.IsRunnable oneAndFive ∧ looped.IsCoherent oneAndFive) ∧
    scanned.IsRunnable oneAndFive ∧ scanned.IsCoherent oneAndFive := by
  refine ⟨_, _, _, rfl, ⟨⟨.compiledJoin _, rfl, trivial, trivial, fun inputs hinputs => ?_⟩, ?_⟩,
    ⟨⟨.converter .loop, rfl, trivial, trivial, fun _ _ => trivial⟩, fun _ _ => trivial⟩,
    ⟨.federatedScan _ _, rfl, trivial, ⟨_, rfl, by decide⟩, fun _ _ => trivial⟩, fun _ _ => trivial⟩
  · -- any two numbers can be compared
    obtain ⟨ls, others, ⟨given, hgiven, hmakes⟩, hothers, rfl⟩ := hinputs
    obtain ⟨rs, hfetched, rfl⟩ := yieldsList_singleton hothers
    obtain ⟨rows, hsorted, rfl⟩ := yieldsList_singleton hgiven
    cases hmakes
    intro left hleft right hright
    obtain ⟨n, rfl⟩ := yields_numbers (.inr hsorted) left hleft
    obtain ⟨m, rfl⟩ := yields_numbers (.inl hfetched) right hright
    exact Expr.evaluates_binary.mpr ⟨⟨_, rfl⟩, Expr.evaluates_column.mpr Nat.two_pos,
      Expr.evaluates_column.mpr Nat.one_lt_two⟩
  · exact fun _ _ => trivial

/-- The ascending pairs, handed out by generated code over pipelines over a foreign source. -/
theorem run_generate_yields_ascendingPairs :
    ∃ registry executable, Registry.standard = .ok registry ∧
      (∀ n ∈ ascendingPairs.root.nodes, n.IsRunnable oneAndFive) ∧
      (∀ n ∈ ascendingPairs.root.nodes, n.IsCoherent oneAndFive) ∧
      (∀ n ∈ ascendingPairs.root.nodes, ∀ m ∈ ascendingPairs.root.nodes, n.id = m.id → n = m) ∧
      ascendingPairs.root.convention ∈ [Convention.iterator, .compiled, .compiledRecord] ∧
      ascendingPairs.generate registry = .ok executable ∧
      executable.run oneAndFive =
        .ok [[.int 5, .int 5], [.int 1, .int 1], [.int 1, .int 5]] := by
  obtain ⟨joined, looped, scanned, hlist, hjoined, hlooped, hscanned⟩ := nodes_ascendingPairs
  have hroot : ascendingPairs.root.IsRunnable oneAndFive :=
    ⟨.converter .toRecord, rfl, trivial, trivial, fun _ _ => trivial⟩
  have hfetched : fetchedNumbers.IsRunnable oneAndFive :=
    ⟨.converter .fetch, rfl, trivial, trivial, fun _ _ => trivial⟩
  have hsorted : sortedNumbers.IsRunnable oneAndFive ∧ sortedNumbers.IsCoherent oneAndFive := by
    refine ⟨⟨.pulled nofun, rfl, trivial, trivial, ?_⟩, ?_⟩
    · intro inputs hinputs
      obtain ⟨rows, hrows, rfl⟩ := yieldsList_singleton hinputs
      intro row hrow
      obtain ⟨n, rfl⟩ := yields_numbers (.inl hrows) row hrow
      exact List.forall_mem_singleton.mpr (Expr.evaluates_column.mpr Nat.one_pos)
    · intro inputs hinputs
      obtain ⟨rows, hrows, rfl⟩ := yieldsList_singleton hinputs
      refine List.forall_mem_singleton.mpr ((Scalar.coherent_admits .int64).mono ?_)
      rintro _ ⟨row, hrow, rfl⟩
      obtain ⟨n, rfl⟩ := yields_numbers (.inl hrows) row hrow
      rfl
  have hnodes : ∀ n ∈ ascendingPairs.root.nodes, n.IsRunnable oneAndFive := by
    rw [hlist]
    simp only [List.forall_mem_cons]
    exact ⟨hroot, hjoined.1, hlooped.1, hsorted.1, hfetched, hscanned.1, hfetched, hscanned.1, nofun⟩
  have hcoherent : ∀ n ∈ ascendingPairs.root.nodes, n.IsCoherent oneAndFive := by
    rw [hlist]
    simp only [List.forall_mem_cons]
    exact ⟨fun _ _ => trivial, hjoined.2, hlooped.2, hsorted.2, fun _ _ => trivial, hscanned.2,
      fun _ _ => trivial, hscanned.2, nofun⟩
  have hids : ∀ n ∈ ascendingPairs.root.nodes, ∀ m ∈ ascendingPairs.root.nodes, n.id = m.id →
      n = m := by
    refine eq_of_find? ?_
    show ∀ n ∈ [_, _, _, _, _, _, _, _], _
    simp only [List.forall_mem_cons]
    exact ⟨rfl, rfl, rfl, rfl, rfl, rfl, rfl, rfl, nofun⟩
  have hroot : ascendingPairs.root.convention ∈
      [Convention.iterator, .compiled, .compiledRecord] := by decide
  obtain ⟨executable, rows, hgenerate, hrun, -⟩ :=
    Plan.run_generate_yields Registry.standard_eq hnodes hcoherent hids hroot
  have hexecute : ascendingPairs.execute .builtin oneAndFive =
        .ok [[.int 5, .int 5], [.int 1, .int 1], [.int 1, .int 5]] := by
    decide +kernel
  rw [Plan.execute, hgenerate] at hexecute
  exact ⟨_, executable, Registry.standard_eq, hnodes, hcoherent, hids, hroot, hgenerate, hexecute⟩

/-- A source of empty tables. -/
def noTables : RowSource := ⟨fun _ => .ok []⟩

/-- Numbers that cannot be put in order: the second one is a double that is the same as both others. -/
def roundedNumbers : List Row :=
  [[.int 9007199254740993], [.float ⟨0x4340000000000000⟩], [.int 9007199254740992]]

/-- The numbers, sorted by a pipeline. -/
def sortedRoundedNumbers : Plan Float where
  root := .node 1 (.sort [⟨.col "x" 0, true, false⟩]) .iterator ⟨[⟨"x", .float64, true⟩]⟩ 0 0
    [.node 0 (.values ⟨[⟨"x", .float64, true⟩]⟩ roundedNumbers) .iterator ⟨[⟨"x", .float64, true⟩]⟩ 0 0
      []]
  truncated := false

/-- All nodes of the plan are runnable. Running it gives the numbers as they are, the larger integer
before the smaller one, which is not what the plan yields. -/
theorem not_run_generate_yields_roundedNumbers :
    ∃ registry executable, Registry.standard = .ok registry ∧
      (∀ n ∈ sortedRoundedNumbers.root.nodes, n.IsRunnable noTables) ∧
      (∀ n ∈ sortedRoundedNumbers.root.nodes, ∀ m ∈ sortedRoundedNumbers.root.nodes,
        n.id = m.id → n = m) ∧
      sortedRoundedNumbers.root.convention ∈ [Convention.iterator, .compiled, .compiledRecord] ∧
      sortedRoundedNumbers.generate registry = .ok executable ∧
      executable.run noTables = .ok roundedNumbers ∧
      ¬ sortedRoundedNumbers.root.Yields noTables roundedNumbers := by
  have hexecute : sortedRoundedNumbers.execute .builtin noTables = .ok roundedNumbers := by
    decide +kernel
  obtain ⟨executable, hgenerate, hrun⟩ := Plan.exists_generate_of_execute hexecute nofun
  have hwidth : ∀ row ∈ roundedNumbers, row.length = 1 := by decide
  -- the rows that the sort meets
  have hvalues : ∀ inputs, PlanNode.YieldsList noTables sortedRoundedNumbers.root.children inputs →
      inputs = [(⟨[⟨"x", .float64, true⟩]⟩, roundedNumbers)] := fun inputs hinputs =>
    PlanNode.YieldsList.unique _ hinputs ⟨_, _, ⟨_, rfl, .values⟩, rfl, rfl⟩
  refine ⟨_, executable, Registry.standard_eq, ?_, ?_, by decide, hgenerate, hrun, ?_⟩
  · show ∀ n ∈ [_, _], _
    simp only [List.forall_mem_cons]
    refine ⟨⟨.pulled nofun, rfl, trivial, trivial, fun inputs hinputs => ?_⟩,
      ⟨.pulled nofun, rfl, trivial, hwidth, fun _ _ => trivial⟩, nofun⟩
    rw [hvalues inputs hinputs]
    intro row hrow
    refine List.forall_mem_singleton.mpr (Expr.evaluates_column.mpr ?_)
    rw [hwidth row hrow]
    exact Nat.one_pos
  · refine eq_of_find? ?_
    show ∀ n ∈ [_, _], _
    simp only [List.forall_mem_cons]
    exact ⟨rfl, rfl, nofun⟩
  · rintro ⟨inputs, hinputs, hmakes⟩
    rw [hvalues inputs hinputs] at hmakes
    cases hmakes with
    | sort sorts => exact absurd sorts.ordered (by decide +kernel)

end QueryPlanner
