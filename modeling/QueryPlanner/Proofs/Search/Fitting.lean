/-
# Operators stay within their inputs

Building resolves the columns of an operator over what it reads, and whatever rules make of
operators has its columns moved along. So at any time of a search every member reads no columns but
those of its inputs, and there is code for it if it is physical.

* `isWithin_swapped`, `isWithin_restored`, `isWithin_pushed`, `isWithin_merged`,
  `isWithin_composed` : what rules make of operators;
* `Memo.IsFitting` : what is known of every member;
* `isFitting_of_suggests` : proposals of the standard rules keep it, one case for each;
* `every_isFitting_of_build`, `every_isFitting_of_passes` : plans that are built have it, and searches
  keep it.
-/
import QueryPlanner.Proofs.Limits
import QueryPlanner.Proofs.Logical.Layers
import QueryPlanner.Proofs.Plan.Answers
import QueryPlanner.Proofs.Search.Meaning
import QueryPlanner.Proofs.Suggestion

namespace QueryPlanner

variable {ν : Type}

/-! ## Rewritten operators -/

namespace Operator

open Rule

variable {c p q : Expr} {n m width : Nat} {out t t' : RowType} {inner outer merged : List Expr}

/-- The condition of a join reads the same columns when its inputs were exchanged. -/
theorem isWithin_swapped (h : (join .inner c).IsWithin (n + m)) :
    (join .inner (c.mapColumns (swapIndex n m))).IsWithin (m + n) := by
  refine ⟨List.forall_mem_singleton.mpr ?_, trivial⟩
  rw [Nat.add_comm]
  exact (h.reads c List.mem_cons_self).mapColumns fun i hi => swapIndex_lt (Nat.le_refl _) hi

/-- Columns that are restored to their order are those of the exchanged join. -/
theorem isWithin_restored (hout : out.width = n + m) :
    (project (restoreOrder n m out) out).IsWithin (m + n) := by
  refine ⟨fun e he => ?_, length_restoreOrder n m out⟩
  obtain ⟨⟨f, i⟩, hi, rfl⟩ := List.mem_map.mp he
  have hlt : i < n + m := by
    rw [← hout]
    exact List.snd_lt_of_mem_zipIdx hi
  intro c hc
  change c ∈ [_] at hc
  rw [List.mem_singleton.mp hc, Nat.add_comm]
  exact swapIndex_lt (Nat.le_refl _) hlt

/-- A predicate that is pushed into a join reads the columns of the join. -/
theorem isWithin_pushed (hc : (join .inner c).IsWithin width) (hp : (filter p).IsWithin width) :
    (join .inner (.conjunction (c.conjuncts.filter (!isTrueLiteral ·) ++ p.conjuncts))).IsWithin
      width := by
  refine ⟨List.forall_mem_singleton.mpr (Expr.isWithin_conjunction ?_), trivial⟩
  intro e he
  rcases List.mem_append.mp he with he | he
  · exact (hc.reads c List.mem_cons_self).of_mem_conjuncts (List.mem_filter.mp he).1
  · exact (hp.reads p List.mem_cons_self).of_mem_conjuncts he

/-- So does the conjunction of two predicates. -/
theorem isWithin_merged (hp : (filter p).IsWithin width) (hq : (filter q).IsWithin width) :
    (filter (.conjunction (p.conjuncts ++ q.conjuncts))).IsWithin width := by
  refine ⟨List.forall_mem_singleton.mpr (Expr.isWithin_conjunction ?_), trivial⟩
  intro e he
  rcases List.mem_append.mp he with he | he
  · exact (hp.reads p List.mem_cons_self).of_mem_conjuncts he
  · exact (hq.reads q List.mem_cons_self).of_mem_conjuncts he

/-- Composed projections read what the inner one does, and give as many columns as the outer one. -/
theorem isWithin_composed (hinner : (project inner t').IsWithin width) (houter : (project outer t).IsFull)
    (hmerged : Expr.inlineList inner outer = some merged) : (project merged t).IsWithin width :=
  ⟨Expr.isWithin_inlineList hmerged hinner.reads, (Expr.length_inlineList hmerged).trans houter⟩

end Operator

namespace Memo

variable {memo before after : Memo ν} {g : GroupId} {op : Operator} {c : Convention}
  {children gs : List GroupId} {inputs : List Convention} {m : Member}

/-! ## Row types -/

/-- Groups keep their row types. -/
theorem GrowsTo.rowTypes (h : before.GrowsTo after) (hgs : ∀ g ∈ gs, g < before.groups.size) :
    after.rowTypes gs = before.rowTypes gs :=
  List.map_congr_left fun g hg => h.rowType g (hgs g hg)

theorem GrowsTo.width (h : before.GrowsTo after) (hgs : ∀ g ∈ gs, g < before.groups.size) :
    after.width gs = before.width gs := by
  unfold Memo.width
  rw [h.rowTypes hgs]

/-- The leaders of groups have their row types. -/
theorem Led.rowTypes_map_leader (h : memo.Led) (gs : List GroupId) :
    memo.rowTypes (gs.map memo.leader) = memo.rowTypes gs := by
  unfold rowTypes
  rw [List.map_map]
  exact List.map_congr_left fun g _ => rowType_congr (h.leader_leader g)

/-- A group that has an operator over others is of the row type that is derived for it. -/
theorem Settled.deriveRowType_of_has (h : memo.Settled) (hhas : memo.Has g op c children inputs) :
    op.deriveRowType (memo.rowTypes children) = .ok (memo.group g).rowType := by
  obtain ⟨m, hm, op', hop, hentry⟩ := hhas
  have hderived := (h.member m hm).1.rowType
  change (memo.member m).op.deriveRowType (memo.rowTypes (memo.member m).children) = _ at hderived
  rw [hentry.op, hentry.children, h.led.rowTypes_map_leader, hentry.group,
    rowType_congr (h.led.leader_leader g), ← Operator.deriveRowType_canonical, hop,
    Operator.deriveRowType_canonical] at hderived
  exact hderived

/-- So it is for the logical members of a group. -/
theorem Settled.deriveRowType_of_mem_logicalMembers (h : memo.Settled)
    (hm : m ∈ Rule.logicalMembers memo g) :
    m.op.deriveRowType (memo.rowTypes m.children) = .ok (memo.group g).rowType := by
  obtain ⟨i, hi, hlt, rfl, -⟩ := Rule.exists_of_mem_logicalMembers h hm
  obtain ⟨-, -, hgroup⟩ := h.mem_group_iff.mp hi
  have hderived := (h.member i hlt).1.rowType
  rw [hgroup, rowType_congr (h.led.leader_leader g)] at hderived
  exact hderived

/-- Proposed groups are in a memo as groups of their row types. -/
theorem rowTypes_of_areIn : ∀ (xs : List GroupId) {gs : List GroupId}, Source.AreIn memo (xs.map .group) gs →
    memo.rowTypes gs = memo.rowTypes xs
  | [], gs, h => by
      rw [List.map_nil, Source.AreIn] at h
      rw [h]
  | x :: xs, gs, h => by
      rw [List.map_cons, Source.AreIn] at h
      obtain ⟨g, gs', rfl, hg, hgs⟩ := h
      rw [Source.IsIn] at hg
      show (memo.group g).rowType :: memo.rowTypes gs' = (memo.group x).rowType :: memo.rowTypes xs
      rw [rowType_congr hg, rowTypes_of_areIn xs hgs]

/-! ## Members -/

/-- A member reads no columns but those of its inputs, the rows that it has itself or scans are as
wide as they should be, and there is code for it if it is physical. -/
structure IsFitting (source : RowSource) (memo : Memo ν) (m : Member) : Prop where
  within : m.op.IsWithin (memo.width m.children)
  supplied : m.op.IsSupplied source
  implemented : m.isLogical = false → IsImplemented m.op m.convention m.inputs

variable {source : RowSource}

theorem isStable_isFitting (source : RowSource) : IsStable (IsFitting (ν := ν) source) := by
  intro before after m hbefore h hm hfitting
  have hwidth : after.width (after.member m).children = before.width (before.member m).children := by
    rw [h.children_eq hm]
    unfold Memo.width
    rw [h.settled.led.rowTypes_map_leader, h.rowTypes (hbefore.member m hm).1.children_lt]
  constructor
  · rw [h.op_eq hm, hwidth]
    exact hfitting.within
  · rw [h.op_eq hm]
    exact hfitting.supplied
  · rw [h.isLogical_eq hm, h.op_eq hm, h.convention_eq hm, h.inputs_eq hm]
    exact hfitting.implemented

/-- A new member fits, if its operator does over the groups that it was added over. -/
theorem IsEntry.isFitting (hled : memo.Led) (h : memo.IsEntry g op c children inputs m)
    (hwithin : op.IsWithin (memo.width children)) (hsupplied : op.IsSupplied source)
    (hcode : c ≠ .logical → IsImplemented op c inputs) : IsFitting source memo m := by
  constructor
  · rw [h.op, h.children, Memo.width, hled.rowTypes_map_leader]
    exact hwithin
  · rw [h.op]
    exact hsupplied
  · intro hphysical
    rw [h.op, h.convention, h.inputs]
    refine hcode fun hlogical => ?_
    unfold Member.isLogical at hphysical
    rw [h.convention] at hphysical
    exact of_decide_eq_false hphysical hlogical

/-- Logical members of groups fit. -/
theorem Every.isFitting_of_mem_logicalMembers (hevery : memo.Every (IsFitting source))
    (h : memo.Settled) (hm : m ∈ Rule.logicalMembers memo g) :
    IsFitting source memo m ∧ ∀ child ∈ m.children, child < memo.groups.size := by
  obtain ⟨i, -, hi, rfl, -⟩ := Rule.exists_of_mem_logicalMembers h hm
  exact ⟨hevery i hi, (h.member i hi).1.children_lt⟩

end Memo

open Memo

/-! ## Proposals -/

section Proposals

variable {before after : Memo ν} {source : RowSource} {m x : Member} {p : Proposal}

/-- A filter reads as many columns as the filters and joins that belong to its input. -/
theorem width_eq_of_mem_logicalMembers (hbefore : before.Settled) (hfits : before.Fits m)
    {predicate : Expr} (hop : m.op = .filter predicate) {child : GroupId} (hchild : child ∈ m.children)
    {below : Member} (hbelow : below ∈ Rule.logicalMembers before child)
    (hkind : below.op.kind ∈ [OperatorKind.filter, .join]) :
    before.width m.children = before.width below.children := by
  have hlength := hfits.length_children
  rw [hop] at hlength
  obtain ⟨g, hg⟩ := List.length_eq_one_iff.mp hlength
  rw [hg, List.mem_singleton] at hchild
  rw [hg, ← hchild]
  exact Operator.width_of_deriveRowType hkind (hbefore.deriveRowType_of_mem_logicalMembers hbelow)

/-- The exchanged join reads its inputs, and the projection that restores the order what is derived
for that join. -/
theorem isFitting_of_commute (hgrows : before.GrowsTo after) (hfits : before.Fits m)
    (hfitting : IsFitting source before m) {condition : Expr}
    {left right : GroupId} (hop : m.op = .join .inner condition) (hchildren : m.children = [left, right])
    (hadmits : Proposal.Admits (.compound
      (.project (Rule.restoreOrder (before.group left).rowType.width
        (before.group right).rowType.width (before.group m.group).rowType)
          (before.group m.group).rowType)
      [.fresh (.join .inner (condition.mapColumns (Rule.swapIndex (before.group left).rowType.width
        (before.group right).rowType.width))) [.group right, .group left]]) after x) :
    IsFitting source after x := by
  have hled := hgrows.settled.led
  have htypes := hfits.rowType
  have hwithin := hfitting.within
  have hlt := hfits.children_lt
  rw [hop, hchildren] at htypes hwithin
  rw [hchildren] at hlt
  have hexchanged : after.rowTypes [right, left] =
      [(before.group right).rowType, (before.group left).rowType] :=
    hgrows.rowTypes fun g hg => hlt g (by simpa [or_comm] using hg)
  have hread : ∀ {gs}, Source.AreIn after [.group right, .group left] gs →
      after.rowTypes gs = [(before.group right).rowType, (before.group left).rowType] :=
    fun hgs => (rowTypes_of_areIn [right, left] hgs).trans hexchanged
  obtain ⟨part, hpart, _, gs, hgs, hentry⟩ := hadmits
  simp only [Source.partsOfList, Source.parts, List.append_nil, List.mem_cons, List.not_mem_nil,
    or_false] at hpart
  rcases hpart with rfl | rfl
  · simp only [Source.AreIn, Source.IsIn] at hgs
    obtain ⟨g, _, rfl, ⟨gs', hgs', hhas⟩, rfl⟩ := hgs
    have hderived := hgrows.settled.deriveRowType_of_has hhas
    rw [hread hgs'] at hderived
    refine hentry.isFitting hled ?_ trivial fun hne => absurd rfl hne
    have hwidth : after.width [g] =
        (before.group right).rowType.width + (before.group left).rowType.width := by
      rw [← RowType.width_join _ _ false]
      exact congrArg RowType.width (Except.ok.inj hderived).symm
    rw [hwidth]
    refine Operator.isWithin_restored ?_
    rw [← Except.ok.inj htypes, RowType.width_join]
  · refine hentry.isFitting hled ?_ trivial fun hne => absurd rfl hne
    rw [Memo.width, hread hgs]
    exact Operator.isWithin_swapped hwithin

/-- What the standard rules propose for a fitting member makes fitting ones, as long as all members
fit. -/
theorem isFitting_of_suggests (hbefore : before.Settled) (hgrows : before.GrowsTo after)
    (hevery : before.Every (IsFitting source)) (hfits : before.Fits m)
    (hfitting : IsFitting source before m) (hp : Rule.Suggests before m p) (hadmits : p.Admits after x) :
    IsFitting source after x := by
  have hled := hgrows.settled.led
  -- an operator over the inputs of a lower member, within the columns of these
  have hover : ∀ {below : Member} {child g op}, below ∈ Rule.logicalMembers before child →
      after.IsEntry g op .logical below.children (below.children.map fun _ => .logical) x →
        op.IsWithin (before.width below.children) → op.IsSupplied source →
          IsFitting source after x := by
    intro below child g op hbelow hentry hwithin hsupplied
    obtain ⟨-, hlt⟩ := hevery.isFitting_of_mem_logicalMembers hbefore hbelow
    rw [← hgrows.width hlt] at hwithin
    exact hentry.isFitting hled hwithin hsupplied fun hne => absurd rfl hne
  have hlower : ∀ {below : Member} {child op}, below ∈ Rule.logicalMembers before child →
      below.op = op → op.IsWithin (before.width below.children) := by
    rintro below child _ hbelow rfl
    exact (hevery.isFitting_of_mem_logicalMembers hbefore hbelow).1.within
  have hwithin := hfitting.within
  cases hp with
  | commute hop hchildren =>
      exact isFitting_of_commute hgrows hfits hfitting hop hchildren hadmits
  | push hop hchild hbelow hcondition =>
      obtain ⟨_, hentry⟩ := hadmits
      rw [width_eq_of_mem_logicalMembers hbefore hfits hop hchild hbelow
        (by simp [hcondition, Operator.kind]), hop] at hwithin
      exact hover hbelow hentry (Operator.isWithin_pushed (hlower hbelow hcondition) hwithin) trivial
  | merge hop hchild hbelow hinner =>
      obtain ⟨_, hentry⟩ := hadmits
      rw [width_eq_of_mem_logicalMembers hbefore hfits hop hchild hbelow
        (by simp [hinner, Operator.kind]), hop] at hwithin
      exact hover hbelow hentry (Operator.isWithin_merged (hlower hbelow hinner) hwithin) trivial
  | compose hop hchild hbelow hinner hmerged =>
      obtain ⟨_, hentry⟩ := hadmits
      rw [hop] at hwithin
      exact hover hbelow hentry
        (Operator.isWithin_composed (hlower hbelow hinner) hwithin.full hmerged) trivial
  | drop hop hchild htrivial hbelow =>
      obtain ⟨_, hentry⟩ := hadmits
      obtain ⟨hfound, -⟩ := hevery.isFitting_of_mem_logicalMembers hbefore hbelow
      exact hover hbelow hentry hfound.within hfound.supplied
  | dropBoth hop hchild hbelow hinner hmerged hinput htrivial hlowest =>
      obtain ⟨_, hentry⟩ := hadmits
      obtain ⟨hfound, -⟩ := hevery.isFitting_of_mem_logicalMembers hbefore hlowest
      exact hover hlowest hentry hfound.within hfound.supplied
  | implement hc hinputs hneeded hcode =>
      obtain ⟨-, ⟨_, hentry⟩, -⟩ := hadmits
      refine hentry.isFitting hled ?_ hfitting.supplied fun _ => hcode
      rw [hinputs, hgrows.width hfits.children_lt]
      exact hwithin

end Proposals

/-! ## Searches -/

section Searches

variable [Quantity ν] {planner : Planner ν} {source : RowSource}

/-- Converters of the standard registry fit. -/
theorem isFitting_of_isConversion (hregistry : Registry.standard = .ok planner.registry)
    {memo : Memo ν} {m : Member} (h : memo.IsConversion planner.registry.conversions m) :
    IsFitting source memo m := by
  rw [Registry.standard_eq, Except.ok.injEq] at hregistry
  obtain ⟨g, hop, hhop, -, hentry⟩ := h
  rw [← hregistry] at hhop
  constructor
  · rw [hentry.op]
    exact ⟨nofun, trivial⟩
  · rw [hentry.op]
    trivial
  · intro _
    rw [hentry.op, hentry.convention, hentry.inputs]
    exact .converter (Search.isBridged_of_mem_builtin hhop)

/-- Searches with the standard registry leave all members fitting. -/
theorem every_isFitting_of_passes (hregistry : Registry.standard = .ok planner.registry)
    {s t : Search ν} (hs : Search.IsRunning planner s) (hpasses : Search.Passes planner s t)
    (h : s.memo.Every (IsFitting source)) : t.memo.Every (IsFitting source) := by
  have hstandard := Registry.rules_of_standard hregistry
  refine Search.every_of_passes ?_ (isStable_isFitting source) ?_ ?_ hs hpasses h
  · exact Rule.isRegular_of_eq_standard hstandard
  · exact fun memo m hconversion => isFitting_of_isConversion hregistry hconversion
  · intro rule hrule before after m hbefore hevery hm hfires p hp i hadmits
    obtain ⟨hfits, -⟩ := hbefore.member m hm
    rw [hstandard] at hrule
    have hsuggests := Rule.suggests_of_mem_standard hrule hfires.met hfits.length_children hp
    exact isFitting_of_suggests hbefore hfires.grows hevery hfits (hevery m hm) hsuggests hadmits

end Searches

/-! ## Building -/

section Building

variable {source : RowSource}

/-- Adding operators within the columns of what they are over leaves all members fitting, if rows are
as wide as they should be. -/
theorem Memo.Extends.every_isFitting {ops : List Operator} {memo after : Memo ν}
    (h : Extends ops memo after) (hops : ∀ op ∈ ops, op.IsSupplied source) (hmemo : memo.Settled)
    (hevery : memo.Every (IsFitting source)) : after.Settled ∧ after.Every (IsFitting source) := by
  induction h with
  | refl => exact ⟨hmemo, hevery⟩
  | @add mid after op children g _ hop hlt hwithin hrun ih =>
      obtain ⟨hmid, hfitting⟩ := ih
      obtain ⟨hadds, -, -⟩ := hmid.returns_addLogical hlt hrun
      refine ⟨hadds.settled, hfitting.of_growsTo (isStable_isFitting source) hmid hadds.toGrowsTo ?_⟩
      intro m hle hm
      rw [← hadds.toGrowsTo.width hlt] at hwithin
      exact (hadds.added m hle hm).isFitting hadds.settled.led hwithin (hops op hop)
        fun hne => absurd rfl hne

/-- All members of the memo that is built for a plan fit, if the rows of the plan and of its tables
are as wide as they should be. -/
theorem every_isFitting_of_build {tables : List Request.Table} {relation : Request.Relation}
    {root : GroupId} {memo : Memo Float} {logical : LogicalPlan}
    (hbuild : (Request.build tables relation).run.run {} = (.ok root, memo))
    (hlogical : relation.logical tables = .ok logical)
    (hsupplied : ∀ op ∈ logical.operators, op.IsSupplied source) :
    memo.Every (IsFitting source) := by
  obtain ⟨-, -, -, plan, hplan, -, hextends⟩ :=
    Request.exists_logical_of_build Memo.derives_empty hbuild
  obtain rfl := Except.ok.inj (hlogical.symm.trans hplan)
  exact (hextends.every_isFitting hsupplied Memo.settled_empty
    fun m hm => absurd hm (Nat.not_lt_zero m)).2

end Building

end QueryPlanner
