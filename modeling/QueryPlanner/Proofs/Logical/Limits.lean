/-
# The limits of a plan

The memo that is built for a plan is within limits that can be read off the plan: expressions are
made of what its expressions are made of, and rows are as wide as its widest ones. If every
predicate that it filters by says something, then predicates are bounded by what they say, whatever
is put together of them.

* `Operator.exists_shapes` : where a row type is derived for an operator, it has a shape;
* `Extends.isShaped` : a memo that is built has shapes, and one member in each group;
* `IsShaped.exists_limits` : a memo of shapes is within limits.
-/
import Mathlib.Data.Set.Finite.Lattice
import Mathlib.Data.Set.Finite.Lemmas
import QueryPlanner.Proofs.Logical.Layers
import QueryPlanner.Proofs.Memo.Bounds
import QueryPlanner.Proofs.Search.Fitting

namespace QueryPlanner

variable {ν : Type}

/-! ## Shapes -/

/-- An operator that a row type is derived for has a shape, if there is an expression for each column
of a projection. -/
theorem Operator.exists_shapes {op : Operator} {inputs : List Shape} {t : RowType} (hfull : op.IsFull)
    (h : op.deriveRowType (inputs.map Shape.rowType) = .ok t) : ∃ s, op.Shapes inputs s := by
  have hlength := deriveRowType_length h
  rw [List.length_map] at hlength
  cases op with
  | values u rows =>
      obtain rfl := List.length_eq_zero_iff.mp hlength
      exact ⟨_, .values⟩
  | scan table u =>
      obtain rfl := List.length_eq_zero_iff.mp hlength
      exact ⟨_, .scan⟩
  | join type c =>
      obtain ⟨l, r, rfl⟩ := List.length_eq_two.mp hlength
      exact ⟨_, .join⟩
  | filter p =>
      obtain ⟨s, rfl⟩ := List.length_eq_one_iff.mp hlength
      exact ⟨_, .filter⟩
  | project exprs u =>
      obtain ⟨s, rfl⟩ := List.length_eq_one_iff.mp hlength
      exact ⟨_, .project hfull⟩
  | sort order =>
      obtain ⟨s, rfl⟩ := List.length_eq_one_iff.mp hlength
      exact ⟨_, .sort⟩
  | limit offset count =>
      obtain ⟨s, rfl⟩ := List.length_eq_one_iff.mp hlength
      exact ⟨_, .limit⟩
  | converter source =>
      obtain ⟨s, rfl⟩ := List.length_eq_one_iff.mp hlength
      exact ⟨_, .converter⟩

namespace Memo

variable {memo after : Memo ν} {ops : List Operator} {den : GroupId → Shape}

/-- A logical member with one of some operators. -/
def IsOneOf (ops : List Operator) (_ : Memo ν) (m : Member) : Prop :=
  m.op ∈ ops ∧ m.convention = .logical ∧ ∀ c ∈ m.inputs, c = .logical

theorem isStable_isOneOf (ops : List Operator) : IsStable (IsOneOf (ν := ν) ops) := by
  rintro before after m - h hm ⟨hop, hconvention, hinputs⟩
  unfold IsOneOf
  rw [h.op_eq hm, h.convention_eq hm, h.inputs_eq hm]
  exact ⟨hop, hconvention, hinputs⟩

/-- Adding operators keeps shapes, one member in each group, and these operators only. -/
theorem Extends.isShaped (h : Extends ops memo after) (hmemo : memo.Settled)
    (hshaped : ∃ den, memo.IsShaped den) (hsize : memo.members.size = memo.groups.size)
    (hevery : memo.Every (IsOneOf ops)) :
    after.Settled ∧ (∃ den, after.IsShaped den) ∧ after.members.size = after.groups.size ∧
      after.Every (IsOneOf ops) := by
  induction h with
  | refl => exact ⟨hmemo, hshaped, hsize, hevery⟩
  | @add mid after op children g _ hop hlt hwithin hrun ih =>
      obtain ⟨hmid, ⟨den, hden⟩, hsame, hall⟩ := ih
      obtain ⟨hadds, hhas, -⟩ := hmid.returns_addLogical hlt hrun
      have hgrows := hadds.toGrowsTo
      have hderived := hadds.settled.deriveRowType_of_has hhas
      have htypes : after.rowTypes children = (children.map den).map Shape.rowType := by
        rw [hgrows.rowTypes hlt, rowTypes, List.map_map]
        exact List.map_congr_left fun g hg => hden.rowType g (hlt g hg)
      rw [htypes] at hderived
      obtain ⟨s, hs⟩ := Operator.exists_shapes hwithin.full hderived
      obtain ⟨_, after', den', hrun', hden', -⟩ := hden.exists_addLogical hmid hlt hs
      obtain ⟨-, rfl⟩ := Prod.mk.inj (hrun.symm.trans hrun')
      refine ⟨hadds.settled, ⟨den', hden'⟩, ?_, ?_⟩
      · rcases hmid.size_of_returns_addLogical hrun with rfl | ⟨-, hgroups, hmembers, -⟩
        · exact hsame
        · rw [hgroups, hmembers, hsame]
      · refine hall.of_growsTo (isStable_isOneOf ops) hmid hgrows fun m hle hm => ?_
        have hentry := hadds.added m hle hm
        refine ⟨hentry.op ▸ hop, hentry.convention, fun c hc => ?_⟩
        rw [hentry.inputs] at hc
        obtain ⟨_, -, rfl⟩ := List.mem_map.mp hc
        rfl

end Memo

/-! ## Limits -/

section Vocabulary

variable {parts : List Expr} {names : Set String} {width : Nat}

/-- What some expressions are made of, and names of columns. -/
def Vocabulary.ofParts (parts : List Expr) {names : Set String} (hnames : names.Finite) (width : Nat) :
    Vocabulary where
  columns := (fun c => (c.table, c.name)) '' {c | .column c ∈ parts} ∪ (none, ·) '' names
  literals := {v | Expr.literal v ∈ parts}
  calls := Prod.fst '' {x : String × List Expr | .call x.1 x.2 ∈ parts}
  width := width
  finite_columns := by
    refine Set.Finite.union (Set.Finite.image _ ?_) (hnames.image _)
    exact (List.finite_toSet parts).preimage fun _ _ _ _ h => Expr.column.inj h
  finite_literals := (List.finite_toSet parts).preimage fun _ _ _ _ h => Expr.literal.inj h
  finite_calls := by
    refine Set.Finite.image _ ((List.finite_toSet parts).preimage fun _ _ _ _ h => ?_)
    exact Prod.ext (Expr.call.inj h).1 (Expr.call.inj h).2

theorem Vocabulary.admits_ofParts (hnames : names.Finite)
    (hwidth : ∀ c, Expr.column c ∈ parts → c.index < width) {part : Expr} (h : part ∈ parts) :
    (ofParts parts hnames width).Admits part := by
  cases part with
  | column c => exact ⟨.inl ⟨c, h, rfl⟩, hwidth c h⟩
  | literal v => exact h
  | call name args => exact ⟨(name, args), h, rfl⟩
  | _ => trivial

end Vocabulary

/-- The limits of some operators, where there are only some fields and groups of some number. -/
def Limits.ofOperators (ops : List Operator) {fields : Set Field} (hfields : fields.Finite)
    (width bulk weight content older : Nat) : Limits where
  toVocabulary := .ofParts (Expr.partsOfList (ops.flatMap Operator.exprs)) (hfields.image Field.name)
    width
  fields := fields
  given := {op | op ∈ ops}
  conventions := {c | c ∈ Convention.builtin}
  bulk := bulk
  weight := weight
  content := content
  older := older
  finite_fields := hfields
  finite_given := List.finite_toSet ops
  finite_conventions := List.finite_toSet Convention.builtin
  name_mem f hf := .inr ⟨f.name, ⟨f, hf, rfl⟩, rfl⟩
  builtin_mem _ hc := hc

section OfOperators

variable {ops : List Operator} {fields : Set Field} {hfields : fields.Finite}
  {width bulk weight content older : Nat}

/-- The operators are within their limits, if columns are within the width and predicates are no
larger than the bulk. -/
theorem Operator.isOver_ofOperators {op : Operator} (hop : op ∈ ops)
    (hwidth : ∀ c, Expr.column c ∈ Expr.partsOfList (ops.flatMap exprs) → c.index < width)
    (hbulk : ∀ e ∈ ops.flatMap exprs, e.size + 1 ≤ bulk) (hkind : op.kind ≠ .converter)
    (hcontent : ∀ p, op = .filter p → 0 < p.content) :
    op.IsOver (.ofOperators ops hfields width bulk weight content older) := by
  have hexprs : ∀ e ∈ op.exprs, e ∈ ops.flatMap exprs := fun e he =>
    List.mem_flatMap.mpr ⟨op, hop, he⟩
  have hover : ∀ e ∈ op.exprs, e.IsOver (Vocabulary.ofParts
      (Expr.partsOfList (ops.flatMap exprs)) (hfields.image Field.name) width) := fun e he part hpart =>
    Vocabulary.admits_ofParts _ hwidth (Expr.mem_partsOfList.mpr ⟨e, hexprs e he, hpart⟩)
  cases op with
  | filter p =>
      have hp : p ∈ exprs (.filter p) := List.mem_singleton_self p
      refine ⟨hover p hp, Nat.le_trans (hbulk p (hexprs p hp)) ?_⟩
      exact Nat.le_mul_of_pos_right _ (hcontent p rfl)
  | project es t => exact hover
  | join type c =>
      have hc : c ∈ exprs (.join type c) := List.mem_singleton_self c
      refine ⟨hover c hc, Nat.le_trans (hbulk c (hexprs c hc)) ?_⟩
      exact Nat.le_mul_of_pos_right _ (Nat.succ_pos _)
  | converter source => exact absurd rfl hkind
  | _ => exact hop

end OfOperators

/-- What some numbers below a bound have in their lists is finite. -/
theorem finite_setOf_exists_lt {α : Type} (n : Nat) (f : Nat → List α) :
    {a | ∃ i < n, a ∈ f i}.Finite := by
  refine ((Set.finite_lt_nat n).biUnion fun i _ => List.finite_toSet (f i)).subset ?_
  rintro a ⟨i, hi, ha⟩
  exact Set.mem_biUnion hi ha

namespace Memo

variable {memo : Memo ν} {ops : List Operator} {den : GroupId → Shape}

/-- A memo of shapes is within limits, if it has no more members than groups, each of its logical
members has one of some operators, and the predicates among these say something. -/
theorem IsShaped.exists_limits (h : memo.IsShaped den) (hs : memo.Settled)
    (hsize : memo.members.size ≤ memo.groups.size) (hevery : memo.Every (IsOneOf ops))
    (hkind : ∀ op ∈ ops, op.kind ≠ .converter) (hcontent : ∀ p, .filter p ∈ ops → 0 < p.content) :
    ∃ lim : Limits, memo.IsBounded lim den := by
  have hfields := finite_setOf_exists_lt memo.groups.size fun g => (den g).rowType.fields
  have hcolumns : {c | Expr.column c ∈ Expr.partsOfList (ops.flatMap Operator.exprs)}.Finite :=
    (List.finite_toSet _).preimage fun _ _ _ _ h => Expr.column.inj h
  obtain ⟨last, hlast⟩ := Set.exists_upper_bound_image _ Column.index hcolumns
  obtain ⟨widest, hwidest⟩ := Set.exists_upper_bound_image _ (fun g => (den g).rowType.width)
    (Set.finite_lt_nat memo.groups.size)
  obtain ⟨largest, hlargest⟩ := Set.exists_upper_bound_image _ (fun e : Expr => e.size + 1)
    (List.finite_toSet (ops.flatMap Operator.exprs))
  obtain ⟨heaviest, hheaviest⟩ := Set.exists_upper_bound_image _ id
    (finite_setOf_exists_lt memo.groups.size fun g => (den g).weights)
  obtain ⟨fullest, hfullest⟩ := Set.exists_upper_bound_image _ (fun g => (den g).content)
    (Set.finite_lt_nat memo.groups.size)
  refine ⟨.ofOperators ops hfields (max (last.index + 1) (den widest).rowType.width)
    (largest.size + 1) heaviest (den fullest).content memo.groups.size, hs, h,
      fun g hg => ⟨fun f hf => ⟨g, hg, hf⟩, ?_, fun w hw => hheaviest w ⟨g, hg, hw⟩, hfullest g hg⟩,
      fun m hm => ?_, ?_, ?_⟩
  · exact Nat.le_trans (hwidest g hg) (Nat.le_max_right _ _)
  · obtain ⟨hop, hconvention, hinputs⟩ := hevery m hm
    refine ⟨Operator.isOver_ofOperators hop (fun c hc => ?_) hlargest (hkind _ hop)
      (fun p hp => hcontent p (hp ▸ hop)), fun _ => (hs.member m hm).1.children_lt, ?_, fun c hc => ?_⟩
    · exact Nat.lt_of_lt_of_le (Nat.lt_succ_of_le (hlast c hc)) (Nat.le_max_left _ _)
    · rw [hconvention]
      exact Limits.logical_mem _
    · rw [hinputs c hc]
      exact Limits.logical_mem _
  · exact Nat.add_le_add_left (Set.ncard_le_ncard (fun key hkey => hkey.1) (Limits.finite_keys _ _)) _
  · exact Nat.add_le_add hsize (Set.ncard_le_ncard (fun key hkey => hkey.1) (Limits.finite_keys _ _))

end Memo

/-- The memo that is built for a plan is within limits, if every predicate that the plan filters by
says something. -/
theorem exists_limits_of_build {tables : List Request.Table} {relation : Request.Relation}
    {root : GroupId} {memo : Memo Float} {logical : LogicalPlan}
    (hbuild : (Request.build tables relation).run.run {} = (.ok root, memo))
    (hlogical : relation.logical tables = .ok logical)
    (hcontent : ∀ p, .filter p ∈ logical.operators → 0 < p.content) :
    ∃ (lim : Limits) (den : GroupId → Shape), memo.IsBounded lim den := by
  obtain ⟨-, -, -, plan, hplan, -, hextends⟩ :=
    Request.exists_logical_of_build Memo.derives_empty hbuild
  obtain rfl := Except.ok.inj (hlogical.symm.trans hplan)
  obtain ⟨hs, ⟨den, hshaped⟩, hsize, hevery⟩ := hextends.isShaped Memo.settled_empty
    ⟨fun _ => .table ⟨[]⟩, Memo.isShaped_empty _⟩ rfl fun m hm => absurd hm (Nat.not_lt_zero m)
  obtain ⟨lim, hbounded⟩ := hshaped.exists_limits hs (Nat.le_of_eq hsize) hevery
    LogicalPlan.kind_ne_converter hcontent
  exact ⟨lim, den, hbounded⟩

end QueryPlanner
