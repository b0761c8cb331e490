/-
# Commuting joins comes to an end

A join with its inputs exchanged is commuted back to the join that it came of: the columns of the
condition return to their places, so that the index knows the join already. The two projections that
restore the order of the columns are inlined into each other to all columns in order, so that nothing
is proposed for them but what their groups have.

* `Settled.returns_addTo_of_has`, `Search.IsIdle` : what is in a memo already is not added again;
* `Memo.IsPlain`, `every_isPlain_of_passes` : logical members read logical inputs at any time;
* `IsInnerJoin`, `IsExchange`, `IsCommuted` : joins, the exchanged ones, and what is proposed for them;
* `Restores.mergeInto_eq` : two projections that restore each other's order come to no projection;
* `IsRoundTrip` : a join and its exchange, for which there is nothing new to be proposed;
* `commuting_closes` : inserting the exchange, and the exchange of that, comes to such a memo.
-/
import QueryPlanner.Proofs.Commuting
import QueryPlanner.Proofs.Search.RowTypes

namespace QueryPlanner

open Memo

variable {ν : Type}

/-! ## What is there already -/

namespace Memo

variable {memo : Memo ν} {g : GroupId} {op : Operator} {c : Convention} {children : List GroupId}
  {inputs : List Convention}

/-- What a group has is found by the index, in this group. -/
theorem Settled.exists_index_of_has (h : memo.Settled) (hhas : memo.Has g op c children inputs) :
    ∃ first, memo.index.get? (.of op c (children.map memo.leader) inputs) = some first ∧
      (memo.member first).group = memo.leader g := by
  obtain ⟨m, hm, op', hop, hentry⟩ := hhas
  obtain ⟨first, hfirst, hgroup⟩ := h.indexed m hm
  unfold Member.key MemberKey.of at hfirst
  rw [hentry.op, hop, hentry.convention, hentry.children, hentry.inputs] at hfirst
  exact ⟨first, hfirst, hgroup.trans hentry.group⟩

/-- What a group has is not added to it again. -/
theorem Settled.returns_addTo_of_has (h : memo.Settled) (hhas : memo.Has g op c children inputs)
    (origin : String) : ∃ m, Returns (Memo.addTo g op c children inputs origin) memo m memo := by
  obtain ⟨first, hfirst, hgroup⟩ := h.exists_index_of_has hhas
  refine ⟨first, ?_⟩
  unfold Returns
  rw [run_addTo, hfirst]
  exact if_neg (not_not_intro hgroup)

/-- Nor is it added in a group of its own. -/
theorem Settled.returns_addLogical_of_has (h : memo.Settled)
    (hhas : memo.Has g op .logical children (children.map fun _ => .logical)) :
    Returns (Memo.addLogical op children) memo (memo.leader g) memo := by
  obtain ⟨first, hfirst, hgroup⟩ := h.exists_index_of_has hhas
  have hadd : Returns (Memo.add op .logical children (children.map fun _ => .logical)) memo
      (memo.leader g, first) memo := by
    unfold Returns
    rw [run_add, hfirst]
    dsimp only
    rw [hgroup]
  exact hadd.bind (returns_pure.mpr ⟨rfl, rfl⟩)

/-- It does not matter by which of the groups of a leader an input is called. -/
theorem Has.congr_children {others : List GroupId} (h : memo.Has g op c children inputs)
    (hl : children.map memo.leader = others.map memo.leader) : memo.Has g op c others inputs := by
  obtain ⟨m, hm, op', hop, hentry⟩ := h
  exact ⟨m, hm, op', hop, hentry.group, hentry.op, hentry.convention, hentry.children.trans hl,
    hentry.inputs⟩

theorem Led.map_leader_map_leader (h : memo.Led) (gs : List GroupId) :
    (gs.map memo.leader).map memo.leader = gs.map memo.leader := by
  rw [List.map_map]
  exact List.map_congr_left fun g _ => h.leader_leader g

/-- A group that has an operator over some inputs has it over their leaders. -/
theorem Has.map_leader (hled : memo.Led)
    (h : memo.Has g op .logical children (children.map fun _ => .logical)) :
    memo.Has g op .logical (children.map memo.leader)
      ((children.map memo.leader).map fun _ => .logical) := by
  rw [List.map_map]
  exact h.congr_children (hled.map_leader_map_leader children).symm

end Memo

namespace Search

variable {memo : Memo ν} {g : GroupId}

mutual

/-- An input that is in a memo is found there. -/
theorem returns_materialize_of_isIn (h : memo.Settled) : ∀ (s : Source) {g : GroupId},
    s.IsIn memo g → Returns (materialize s) memo (memo.leader g) memo
  | .group x, g, hs => by
      unfold Source.IsIn at hs
      rw [← hs]
      rfl
  | .fresh op children, g, hs => by
      unfold Source.IsIn at hs
      obtain ⟨gs, hgs, hhas⟩ := hs
      unfold materialize
      exact (returns_materializeList_of_areIn h children hgs).bind
        (h.returns_addLogical_of_has (hhas.map_leader h.led))

theorem returns_materializeList_of_areIn (h : memo.Settled) : ∀ (ss : List Source)
    {gs : List GroupId}, Source.AreIn memo ss gs →
      Returns (materializeList ss) memo (gs.map memo.leader) memo
  | [], gs, hss => by
      unfold Source.AreIn at hss
      rw [hss]
      rfl
  | s :: rest, gs, hss => by
      unfold Source.AreIn at hss
      obtain ⟨g, gs', rfl, hs, hrest⟩ := hss
      unfold materializeList
      exact (returns_materialize_of_isIn h s hs).bind
        ((returns_materializeList_of_areIn h rest hrest).bind (returns_pure.mpr ⟨rfl, rfl⟩))

end

/-- A proposal that changes nothing when it is inserted into a group. -/
def IsIdle (memo : Memo ν) (g : GroupId) (p : Proposal) : Prop :=
  ∀ rule, Returns (insert g rule p) memo () memo

/-- A logical operator that the group has is not inserted again. -/
theorem isIdle_substitution (h : memo.Settled) {op : Operator} {children : List GroupId}
    (hp : (Proposal.substitution op children).IsIn memo g) :
    IsIdle memo g (.substitution op children) := by
  intro rule
  obtain ⟨m, hm⟩ := h.returns_addTo_of_has hp rule
  exact hm.bind (returns_pure.mpr ⟨rfl, rfl⟩)

/-- Nor is one over inputs that are in the memo. -/
theorem isIdle_compound (h : memo.Settled) {op : Operator} {children : List Source}
    (hp : (Proposal.compound op children).IsIn memo g) : IsIdle memo g (.compound op children) := by
  intro rule
  obtain ⟨gs, hgs, hhas⟩ := hp
  obtain ⟨m, hm⟩ := h.returns_addTo_of_has (hhas.map_leader h.led) rule
  exact (returns_materializeList_of_areIn h children hgs).bind
    (hm.bind (returns_pure.mpr ⟨rfl, rfl⟩))

end Search

/-! ## Logical inputs -/

namespace Memo

variable {memo : Memo ν} {m : Member} {g : GroupId}

/-- A logical member reads logical inputs. -/
def IsPlain (_ : Memo ν) (m : Member) : Prop :=
  m.convention = .logical → m.inputs = m.children.map fun _ => .logical

theorem isStable_isPlain : IsStable (IsPlain (ν := ν)) := by
  intro before after i _ h hi hplain hlogical
  rw [h.convention_eq hi] at hlogical
  rw [h.inputs_eq hi, h.children_eq hi, List.map_map, hplain hlogical]
  rfl

theorem isPlain_of_isEntry {op : Operator} {gs : List GroupId}
    (h : memo.IsEntry g op .logical gs (gs.map fun _ => .logical) m) : memo.IsPlain m := by
  intro _
  rw [h.inputs, h.children, List.map_map]
  rfl

theorem isPlain_of_ne {c : Convention} (hc : c ≠ .logical) (h : m.convention = c) :
    memo.IsPlain m := fun hlogical => absurd (h.symm.trans hlogical) hc

/-- What a logical proposal adds is plain. -/
theorem isPlain_of_admits {op : Operator} {children : List Source}
    (h : (Proposal.compound op children).Admits memo m) : memo.IsPlain m := by
  obtain ⟨part, -, g, gs, -, hentry⟩ := h
  exact isPlain_of_isEntry hentry

/-- The group of a plain logical member has its operator. -/
theorem Every.has_of_logical (hplain : memo.Every IsPlain) (h : memo.Settled) {i : MemberId}
    (hi : i < memo.members.size) (hlogical : (memo.member i).convention = .logical) :
    memo.Has (memo.member i).group (memo.member i).op .logical (memo.member i).children
      ((memo.member i).children.map fun _ => .logical) := by
  refine ⟨i, hi, _, rfl, ?_, rfl, hlogical, (h.map_leader hi).symm, hplain i hi hlogical⟩
  rw [leader_of_self (h.member i hi).1.group_live]

/-- The members of a group are in it, so that proposing them for it changes nothing. -/
theorem Every.isIdle_of_mem_alternatives (hplain : memo.Every IsPlain) (h : memo.Settled)
    {p : Proposal} (hp : p ∈ Rule.alternatives memo g) : Search.IsIdle memo g p := by
  obtain ⟨x, hx, rfl⟩ := List.mem_map.mp hp
  obtain ⟨i, hi, hlt, rfl, hlogical⟩ := Rule.exists_of_mem_logicalMembers h hx
  refine Search.isIdle_substitution h ((hplain.has_of_logical h hlt hlogical).congr ?_)
  rw [(h.mem_group_iff.mp hi).2.2, h.led.leader_leader]

end Memo

/-- Whatever the rules and the conversions of a planner have run is in a physical convention. -/
structure Planner.RunsPhysically (planner : Planner ν) : Prop where
  regular : ∀ rule ∈ planner.registry.rules, rule.IsRegular planner.catalog
  rules : ∀ rule ∈ planner.registry.rules, ∀ memo : Memo ν, memo.Settled →
    ∀ m < memo.members.size, rule.pattern.isMetBy memo (memo.member m) = true →
      ∀ p ∈ rule.propose planner.catalog memo (memo.member m), p.Meets fun _ c _ => c ≠ .logical
  conversions : ∀ hop ∈ planner.registry.conversions, hop.2 ≠ .logical

namespace Search

/-- At any time of a search, logical members read logical inputs. -/
theorem every_isPlain_of_passes {planner : Planner ν} (h : planner.RunsPhysically) {s t : Search ν}
    (hs : IsRunning planner s) (hplain : s.memo.Every IsPlain) (hpasses : Passes planner s t) :
    t.memo.Every IsPlain := by
  refine every_of_passes h.regular isStable_isPlain ?_ ?_ hs hpasses hplain
  · rintro memo m ⟨g, hop, hhop, -, hentry⟩
    exact isPlain_of_ne (h.conversions hop hhop) hentry.convention
  · intro rule hrule before after m hbefore _ hm hfires p hp i hadmits
    have hmeets := h.rules rule hrule before hbefore m hm hfires.met p hp
    cases p with
    | substitution op children =>
        obtain ⟨g, hentry⟩ := hadmits
        exact isPlain_of_isEntry hentry
    | compound op children => exact isPlain_of_admits hadmits
    | physical op c inputs =>
        obtain ⟨hne, ⟨g, hentry⟩, -⟩ := hadmits
        exact isPlain_of_ne (hmeets hne) hentry.convention

/-- So do those of the memos that searches start from. -/
theorem LogicallyBuilt.every_isPlain {memo : Memo ν} (h : LogicallyBuilt memo) :
    memo.Every IsPlain := by
  intro m hm
  obtain ⟨g, op, gs, hentry⟩ := h.entries.2.2 m hm
  exact isPlain_of_isEntry hentry

/-- The standard rules and the built-in conversions are for physical conventions. -/
theorem runsPhysically_of_standard [Quantity ν] {planner : Planner ν}
    (h : Registry.standard = .ok planner.registry) : planner.RunsPhysically where
  regular := Rule.isRegular_of_eq_standard (Registry.rules_of_standard h)
  rules rule hrule memo hmemo m hm hmet p hp := by
    rw [Registry.rules_of_standard h] at hrule
    have hsuggests := Rule.suggests_of_mem_standard hrule hmet (hmemo.member m hm).1.length_children hp
    cases hsuggests with
    | implement hc =>
        intro _ hlogical
        rw [hlogical] at hc
        exact absurd hc (by decide)
    | _ => trivial
  conversions hop hhop := by
    rw [Registry.standard_eq, Except.ok.injEq] at h
    rw [← h] at hhop
    obtain ⟨convertlet, hmem, rfl⟩ := List.mem_map.mp ((Registry.builtin.bridged hop).mp hhop)
    exact (Convertlet.ne_logical_of_mem_builtin convertlet hmem).2

end Search

/-! ## Inner joins -/

/-- What stands for an inner join is an inner join. -/
theorem Operator.exists_join_of_canonical {op : Operator} {type : JoinType} {c : Expr}
    (h : op.canonical = (Operator.join type c).canonical) :
    ∃ d, op = .join type d ∧ d.canonical = c.canonical := by
  cases op with
  | join type' d =>
      obtain ⟨rfl, hd⟩ := Operator.join.inj h
      exact ⟨d, rfl, hd⟩
  | _ => cases h

/-- There is nothing that columns stand for but themselves. -/
theorem Expr.eq_of_canonical_columns {es columns : List Expr}
    (h : es.map canonical = columns.map canonical) (hcolumns : ∀ e ∈ columns, ∃ c, e = .column c) :
    es = columns := by
  induction columns generalizing es with
  | nil => exact List.map_eq_nil_iff.mp h
  | cons column rest ih =>
      obtain ⟨⟨c, rfl⟩, hrest⟩ := List.forall_mem_cons.mp hcolumns
      obtain ⟨e, es', rfl, he, hes'⟩ := List.map_eq_cons_iff.mp h
      rw [ih hes' hrest]
      cases e with
      | column c' =>
          obtain rfl : c' = c := Expr.column.inj he
          rfl
      | _ => cases he

theorem Operator.eq_project_of_canonical {op : Operator} {columns : List Expr} {t : RowType}
    (h : op.canonical = (Operator.project columns t).canonical)
    (hcolumns : ∀ e ∈ columns, ∃ c, e = .column c) : op = .project columns t := by
  cases op with
  | project exprs t' =>
      obtain ⟨hexprs, rfl⟩ := Operator.project.inj h
      rw [Expr.eq_of_canonical_columns hexprs hcolumns]
  | _ => cases h

namespace Memo

variable {memo before after : Memo ν} {i j : MemberId} {c d : Expr} {a b g : GroupId}

/-- A member is a logical inner join of two groups, whose condition reads no columns but theirs. -/
structure IsInnerJoin (memo : Memo ν) (i : MemberId) (c : Expr) (a b : GroupId) : Prop where
  lt : i < memo.members.size
  logical : (memo.member i).convention = .logical
  op : (memo.member i).op = .join .inner c
  children : (memo.member i).children = [a, b]
  within : c.IsWithin ((memo.group a).rowType.width + (memo.group b).rowType.width)

/-- The join of two groups with its inputs exchanged. -/
def exchanged (memo : Memo ν) (c : Expr) (a b : GroupId) : Operator :=
  .join .inner (c.mapColumns
    (Rule.swapIndex (memo.group a).rowType.width (memo.group b).rowType.width))

/-- The row type of an inner join of two groups. -/
def joined (memo : Memo ν) (a b : GroupId) : RowType :=
  (memo.group a).rowType.join (memo.group b).rowType false

/-- The columns of a join of two groups, restored after the inputs were exchanged. -/
def restored (memo : Memo ν) (a b : GroupId) : List Expr :=
  Rule.restoreOrder (memo.group a).rowType.width (memo.group b).rowType.width (memo.joined a b)

/-- What is proposed for an inner join of two groups. -/
def commuted (memo : Memo ν) (c : Expr) (a b : GroupId) : Proposal :=
  .compound (.project (memo.restored a b) (memo.joined a b))
    [.fresh (memo.exchanged c a b) [.group b, .group a]]

/-- What is proposed for an inner join is in its group. -/
def IsCommuted (memo : Memo ν) (i : MemberId) (c : Expr) (a b : GroupId) : Prop :=
  (memo.commuted c a b).IsIn memo (memo.member i).group

namespace IsInnerJoin

theorem rowType (h : memo.IsInnerJoin i c a b) (hmemo : memo.Settled) :
    (memo.group (memo.member i).group).rowType = memo.joined a b := by
  have hderived := (hmemo.member i h.lt).1.rowType
  rw [h.op, h.children] at hderived
  exact (Except.ok.inj hderived).symm

theorem propose (h : memo.IsInnerJoin i c a b) (hmemo : memo.Settled) (catalog : Catalog ν) :
    Rule.commuteJoin.propose catalog memo (memo.member i) = [memo.commuted c a b] := by
  unfold Rule.commuteJoin
  dsimp only
  rw [h.op, h.children, h.rowType hmemo]
  rfl

theorem children_lt (h : memo.IsInnerJoin i c a b) (hmemo : memo.Settled) :
    a < memo.groups.size ∧ b < memo.groups.size := by
  have hlt := (hmemo.member i h.lt).1.children_lt
  rw [h.children] at hlt
  exact ⟨hlt a List.mem_cons_self, hlt b (List.mem_cons_of_mem _ List.mem_cons_self)⟩

/-- The groups that stand for the inputs later on are of the row types that the inputs have. -/
theorem rowType_leader (h : before.IsInnerJoin i c a b) (hbefore : before.Settled)
    (hgrows : before.GrowsTo after) :
    (after.group (after.leader a)).rowType = (before.group a).rowType ∧
      (after.group (after.leader b)).rowType = (before.group b).rowType := by
  obtain ⟨ha, hb⟩ := h.children_lt hbefore
  have hled := hgrows.settled.led
  constructor
  · rw [rowType_congr (hled.leader_leader a), hgrows.rowType a ha]
  · rw [rowType_congr (hled.leader_leader b), hgrows.rowType b hb]

/-- An inner join remains one when the memo grows, of the groups that stand for its inputs then. -/
theorem of_growsTo (h : before.IsInnerJoin i c a b) (hbefore : before.Settled)
    (hgrows : before.GrowsTo after) :
    after.IsInnerJoin i c (after.leader a) (after.leader b) := by
  obtain ⟨hta, htb⟩ := h.rowType_leader hbefore hgrows
  refine ⟨hgrows.lt h.lt, ?_, ?_, ?_, ?_⟩
  · rw [hgrows.convention_eq h.lt, h.logical]
  · rw [hgrows.op_eq h.lt, h.op]
  · rw [hgrows.children_eq h.lt, h.children]
    rfl
  · rw [hta, htb]
    exact h.within

end IsInnerJoin

/-- What is proposed for an inner join is in a group if the exchanged join is in some group, and the
projection over that is in it. -/
theorem isIn_commuted_iff {other : Memo ν} : (memo.commuted c a b).IsIn other g ↔
    ∃ s, other.Has s (memo.exchanged c a b) .logical [b, a] [.logical, .logical] ∧
      other.Has g (.project (memo.restored a b) (memo.joined a b)) .logical [s] [.logical] := by
  unfold commuted Proposal.IsIn
  constructor
  · rintro ⟨gs, hgs, hhas⟩
    simp only [Source.AreIn, Source.IsIn] at hgs
    obtain ⟨s, _, rfl, ⟨inputs, ⟨y, _, rfl, hy, x, _, rfl, hx, rfl⟩, hexchanged⟩, rfl⟩ := hgs
    refine ⟨s, hexchanged.congr_children ?_, hhas⟩
    rw [List.map_cons, List.map_cons, List.map_cons, List.map_cons, hx, hy]
  · rintro ⟨s, hexchanged, hhas⟩
    refine ⟨[s], ?_, hhas⟩
    simp only [Source.AreIn, Source.IsIn]
    exact ⟨s, [], rfl, ⟨[b, a], ⟨b, [a], rfl, rfl, a, [], rfl, rfl, rfl⟩, hexchanged⟩, rfl⟩

/-- What was proposed for an inner join is in its group later on, over the groups that stand for the
inputs then. -/
theorem IsInnerJoin.isCommuted_of_isIn (hjoin : before.IsInnerJoin i c a b) (hbefore : before.Settled)
    (hgrows : before.GrowsTo after) (h : (before.commuted c a b).IsIn after (before.member i).group) :
    after.IsCommuted i c (after.leader a) (after.leader b) := by
  have hled := hgrows.settled.led
  obtain ⟨hta, htb⟩ := hjoin.rowType_leader hbefore hgrows
  obtain ⟨s, hexchanged, hhas⟩ := isIn_commuted_iff.mp h
  refine isIn_commuted_iff.mpr ⟨s, ?_, ?_⟩
  · unfold exchanged at hexchanged ⊢
    rw [hta, htb]
    exact hexchanged.congr_children (hled.map_leader_map_leader [b, a]).symm
  · unfold restored joined at hhas ⊢
    rw [hta, htb]
    refine hhas.congr ?_
    rw [hgrows.group_eq hjoin.lt, hled.leader_leader]

theorem IsCommuted.of_growsTo (h : before.IsCommuted i c a b) (hbefore : before.Settled)
    (hjoin : before.IsInnerJoin i c a b) (hgrows : before.GrowsTo after) :
    after.IsCommuted i c (after.leader a) (after.leader b) :=
  hjoin.isCommuted_of_isIn hbefore hgrows (Proposal.isIn_of_growsTo hgrows hbefore h)

/-! ## The exchanged join -/

/-- A member is the join of two groups with its inputs exchanged, up to literals that stand for each
other. -/
structure IsExchange (memo : Memo ν) (j : MemberId) (c : Expr) (a b : GroupId) : Prop where
  lt : j < memo.members.size
  key : (memo.member j).key =
    .of (memo.exchanged c a b) .logical [b, a] [.logical, .logical]

/-- The exchanged join is in the memo once it was inserted, in the group that the projection over it
reads. -/
theorem IsCommuted.exists_isExchange (h : memo.IsCommuted i c a b) (hmemo : memo.Settled)
    (hjoin : memo.IsInnerJoin i c a b) : ∃ j, memo.IsExchange j c a b := by
  obtain ⟨s, ⟨j, hj, op, hop, hentry⟩, -⟩ := isIn_commuted_iff.mp h
  have hleaders := hmemo.map_leader hjoin.lt
  rw [hjoin.children] at hleaders
  obtain ⟨ha, hb⟩ : memo.leader a = a ∧ memo.leader b = b := by
    simpa using hleaders
  refine ⟨j, hj, ?_⟩
  unfold Member.key MemberKey.of
  rw [hentry.op, hop, hentry.convention, hentry.children, hentry.inputs, List.map_cons,
    List.map_cons, ha, hb]
  rfl

namespace IsExchange

/-- What the key of the exchanged join says of it. -/
theorem parts (h : memo.IsExchange j c a b) :
    (memo.member j).children = [b, a] ∧ (memo.member j).convention = .logical ∧
      (memo.member j).inputs = [.logical, .logical] ∧
      (memo.member j).op.canonical = (memo.exchanged c a b).canonical := by
  have hkey := h.key
  unfold Member.key MemberKey.of at hkey
  exact MemberKey.mk.inj hkey

/-- The exchanged join is an inner join itself. -/
theorem exists_isInnerJoin (h : memo.IsExchange j c a b) (hjoin : memo.IsInnerJoin i c a b) :
    ∃ d, d.canonical = (c.mapColumns (Rule.swapIndex (memo.group a).rowType.width
        (memo.group b).rowType.width)).canonical ∧ memo.IsInnerJoin j d b a := by
  obtain ⟨hchildren, hconvention, -, hop⟩ := h.parts
  obtain ⟨d, hj, hd⟩ := Operator.exists_join_of_canonical hop
  refine ⟨d, hd, h.lt, hconvention, hj, hchildren, ?_⟩
  have hwithin : (c.mapColumns (Rule.swapIndex (memo.group a).rowType.width
      (memo.group b).rowType.width)).IsWithin
        ((memo.group b).rowType.width + (memo.group a).rowType.width) := by
    rw [Nat.add_comm]
    exact hjoin.within.mapColumns fun i hi => swapIndex_lt (Nat.le_refl _) hi
  unfold Expr.IsWithin at hwithin ⊢
  rwa [← Expr.columns_canonical, ← hd, Expr.columns_canonical] at hwithin

/-- It stays the exchanged join when the memo grows. -/
theorem of_growsTo (h : before.IsExchange j c a b) (hbefore : before.Settled)
    (hjoin : before.IsInnerJoin i c a b) (hgrows : before.GrowsTo after) :
    after.IsExchange j c (after.leader a) (after.leader b) := by
  obtain ⟨hta, htb⟩ := hjoin.rowType_leader hbefore hgrows
  obtain ⟨hchildren, hconvention, hinputs, hop⟩ := h.parts
  refine ⟨hgrows.lt h.lt, ?_⟩
  unfold exchanged at hop
  unfold Member.key MemberKey.of exchanged
  rw [hgrows.op_eq h.lt, hgrows.convention_eq h.lt, hgrows.children_eq h.lt, hgrows.inputs_eq h.lt,
    hta, htb, hchildren, hconvention, hinputs, hop]
  rfl

/-- The group of the exchanged join is where it is found. -/
theorem has (h : memo.IsExchange j c a b) (hmemo : memo.Settled) :
    memo.Has (memo.member j).group (memo.exchanged c a b) .logical [b, a] [.logical, .logical] := by
  obtain ⟨hchildren, hconvention, hinputs, hop⟩ := h.parts
  refine ⟨j, h.lt, _, hop, ?_, rfl, hconvention, ?_, hinputs⟩
  · rw [leader_of_self (hmemo.member j h.lt).1.group_live]
  · rw [← hmemo.map_leader h.lt, hchildren]

/-- An input that is the exchanged join comes to its group, without anything new in the memo. -/
theorem returns_materialize (h : memo.IsExchange j c a b) (hmemo : memo.Settled) :
    Returns (Search.materialize (.fresh (memo.exchanged c a b) [.group b, .group a])) memo
      (memo.member j).group memo := by
  have hisIn : (Source.fresh (memo.exchanged c a b) [.group b, .group a]).IsIn memo
      (memo.member j).group := by
    simp only [Source.IsIn, Source.AreIn]
    exact ⟨[b, a], ⟨b, [a], rfl, rfl, a, [], rfl, rfl, rfl⟩, h.has hmemo⟩
  have hreturns := Search.returns_materialize_of_isIn hmemo _ hisIn
  rwa [leader_of_self (hmemo.member j h.lt).1.group_live] at hreturns

end IsExchange

/-- The join that was exchanged is the exchange of its exchange. -/
theorem IsInnerJoin.isExchange (hjoin : memo.IsInnerJoin i c a b) (hplain : memo.Every IsPlain)
    (hd : d.canonical = (c.mapColumns (Rule.swapIndex (memo.group a).rowType.width
      (memo.group b).rowType.width)).canonical) : memo.IsExchange i d b a := by
  refine ⟨hjoin.lt, ?_⟩
  have hinputs := hplain i hjoin.lt hjoin.logical
  have hcanonical := Expr.canonical_swapped hjoin.within hd
  unfold Member.key MemberKey.of exchanged
  rw [hjoin.op, hjoin.logical, hinputs, hjoin.children]
  simp only [Operator.canonical, hcanonical, List.map_cons, List.map_nil]

/-! ## Projections that restore the order -/

/-- A logical member of the group of `i` projects the group of `j`. -/
structure Restores (memo : Memo ν) (i j k : MemberId) (exprs : List Expr) (t : RowType) : Prop where
  lt : k < memo.members.size
  logical : (memo.member k).convention = .logical
  op : (memo.member k).op = .project exprs t
  group : (memo.member k).group = (memo.member i).group
  children : (memo.member k).children = [(memo.member j).group]

/-- It is one of the logical members of the group, for which other rules look. -/
theorem Restores.mem_logicalMembers {k : MemberId} {exprs : List Expr} {t : RowType}
    (h : memo.Restores i j k exprs t) (hmemo : memo.Settled) :
    memo.member k ∈ Rule.logicalMembers memo (memo.member i).group := by
  have hfits := (hmemo.member k h.lt).1
  rw [← h.group]
  refine List.mem_filter.mpr ⟨List.mem_map_of_mem (hmemo.mem_group_iff.mpr ?_), ?_⟩
  · exact ⟨hfits.group_lt hmemo.led, h.lt, (leader_of_self hfits.group_live).symm⟩
  · exact decide_eq_true h.logical

/-- What is proposed for it is what is proposed over each projection of its input. -/
theorem Restores.mergeProjections_eq {k : MemberId} {exprs : List Expr} {t : RowType}
    (h : memo.Restores i j k exprs t) (catalog : Catalog ν) :
    Rule.mergeProjections.propose catalog memo (memo.member k) =
      (Rule.logicalMembers memo (memo.member j).group).flatMap (Rule.mergeInto memo exprs t) := by
  unfold Rule.mergeProjections
  dsimp only
  rw [h.op, h.children]

/-- Once the exchange of a join was inserted, the group of the join projects that of the exchange. -/
theorem IsCommuted.exists_restores (h : memo.IsCommuted i c a b) (hmemo : memo.Settled)
    (hjoin : memo.IsInnerJoin i c a b) (hexchange : memo.IsExchange j c a b) :
    ∃ k, memo.Restores i j k (memo.restored a b) (memo.joined a b) := by
  obtain ⟨s, hs, k, hk, op, hop, hentry⟩ := isIn_commuted_iff.mp h
  -- the projection reads the group of the exchange, as members of one key are in one group
  have hgroup : memo.leader s = (memo.member j).group := by
    obtain ⟨first, hfirst, hgroup⟩ := hmemo.exists_index_of_has hs
    obtain ⟨first', hfirst', hgroup'⟩ := hmemo.exists_index_of_has (hexchange.has hmemo)
    rw [← hgroup, Option.some.inj (hfirst.symm.trans hfirst'), hgroup',
      leader_of_self (hmemo.member j hexchange.lt).1.group_live]
  refine ⟨k, hk, hentry.convention, ?_, ?_, ?_⟩
  · rw [hentry.op]
    refine Operator.eq_project_of_canonical hop fun e he => ?_
    obtain ⟨⟨f, n⟩, -, rfl⟩ := List.mem_map.mp he
    exact ⟨_, rfl⟩
  · rw [hentry.group, leader_of_self (hmemo.member i hjoin.lt).1.group_live]
  · rw [hentry.children, List.map_singleton, hgroup]

/-- Two projections that restore the order of each other's columns come to all columns in order, so
that the members of the group are proposed for the one over the other. -/
theorem Restores.mergeInto_eq {k : MemberId} {u : RowType}
    (h : memo.Restores j i k (memo.restored b a) u)
    (ht : (memo.group (memo.member i).group).rowType = memo.joined a b) :
    Expr.inlineList (memo.restored b a) (memo.restored a b) =
        some (Rule.columnsOf (memo.joined a b)) ∧
      Rule.mergeInto memo (memo.restored a b) (memo.joined a b) (memo.member k) =
        Rule.alternatives memo (memo.member i).group := by
  have hinlined : Expr.inlineList (memo.restored b a) (memo.restored a b) =
      some (Rule.columnsOf (memo.joined a b)) := Rule.inlineList_restoreOrder _ _
  refine ⟨hinlined, ?_⟩
  unfold Rule.mergeInto
  rw [h.op, h.children]
  dsimp only
  rw [hinlined]
  exact if_pos (Rule.isTrivial_columnsOf ht)

/-! ## The end of it -/

/-- Nothing new is proposed for a join `i`, the exchange of which is `j`: not by commuting it again,
and not by inlining the projection that restores the columns of the other into its own. -/
structure IsExhausted (catalog : Catalog ν) (memo : Memo ν) (i j : MemberId) (a b : GroupId) : Prop
    where
  children : (memo.member i).children = [a, b]
  commuted : ∀ p ∈ Rule.commuteJoin.propose catalog memo (memo.member i),
    Search.IsIdle memo (memo.member i).group p
  restores : ∃ k, memo.Restores i j k (memo.restored a b) (memo.joined a b)
  inlined : Expr.inlineList (memo.restored b a) (memo.restored a b) =
    some (Rule.columnsOf (memo.joined a b))
  proposed : ∀ k, memo.Restores i j k (memo.restored a b) (memo.joined a b) →
    Rule.mergeProjections.propose catalog memo (memo.member k) =
      (Rule.logicalMembers memo (memo.member j).group).flatMap
        (Rule.mergeInto memo (memo.restored a b) (memo.joined a b))
  merged : ∀ k, memo.Restores j i k (memo.restored b a) (memo.joined b a) →
    memo.member k ∈ Rule.logicalMembers memo (memo.member j).group ∧
      Rule.mergeInto memo (memo.restored a b) (memo.joined a b) (memo.member k) =
        Rule.alternatives memo (memo.member i).group
  idle : ∀ p ∈ Rule.alternatives memo (memo.member i).group,
    Search.IsIdle memo (memo.member i).group p

/-- Nothing new is proposed for a join and its exchange. -/
def IsRoundTrip (catalog : Catalog ν) (memo : Memo ν) (i j : MemberId) : Prop :=
  ∃ a b, IsExhausted catalog memo i j a b ∧ IsExhausted catalog memo j i b a

/-- Two inner joins that are each other's exchange, both of which were commuted. -/
structure AreCommuted (memo : Memo ν) (i j : MemberId) (c d : Expr) (a b : GroupId) : Prop where
  left : memo.IsInnerJoin i c a b
  right : memo.IsInnerJoin j d b a
  isExchange : memo.IsExchange j c a b
  symm : memo.IsExchange i d b a
  leftIn : memo.IsCommuted i c a b
  rightIn : memo.IsCommuted j d b a

namespace AreCommuted

theorem swap (h : memo.AreCommuted i j c d a b) : memo.AreCommuted j i d c b a :=
  ⟨h.right, h.left, h.symm, h.isExchange, h.rightIn, h.leftIn⟩

theorem of_growsTo (h : before.AreCommuted i j c d a b) (hbefore : before.Settled)
    (hgrows : before.GrowsTo after) :
    after.AreCommuted i j c d (after.leader a) (after.leader b) where
  left := h.left.of_growsTo hbefore hgrows
  right := h.right.of_growsTo hbefore hgrows
  isExchange := h.isExchange.of_growsTo hbefore h.left hgrows
  symm := h.symm.of_growsTo hbefore h.right hgrows
  leftIn := h.leftIn.of_growsTo hbefore h.left hgrows
  rightIn := h.rightIn.of_growsTo hbefore h.right hgrows

variable (hmemo : memo.Settled) (hplain : memo.Every IsPlain) (catalog : Catalog ν)

include hmemo hplain

theorem isExhausted (h : memo.AreCommuted i j c d a b) : IsExhausted catalog memo i j a b where
  children := h.left.children
  commuted p hp := by
    rw [h.left.propose hmemo catalog, List.mem_singleton] at hp
    rw [hp]
    exact Search.isIdle_compound hmemo h.leftIn
  restores := h.leftIn.exists_restores hmemo h.left h.isExchange
  inlined := Rule.inlineList_restoreOrder _ _
  proposed k hk := hk.mergeProjections_eq catalog
  merged k hk := ⟨hk.mem_logicalMembers hmemo, (hk.mergeInto_eq (h.left.rowType hmemo)).2⟩
  idle p hp := hplain.isIdle_of_mem_alternatives hmemo hp

theorem isRoundTrip (h : memo.AreCommuted i j c d a b) : IsRoundTrip catalog memo i j :=
  ⟨a, b, h.isExhausted hmemo hplain catalog, h.swap.isExhausted hmemo hplain catalog⟩

end AreCommuted

/-- What is proposed for an inner join is inserted into its group. -/
theorem IsInnerJoin.exists_insert (h : memo.IsInnerJoin i c a b) (hmemo : memo.Settled)
    (hplain : memo.Every IsPlain) (rule : String) :
    ∃ after, Returns (Search.insert (memo.member i).group rule (memo.commuted c a b)) memo () after ∧
      memo.GrowsTo after ∧ after.Every IsPlain ∧
        after.IsCommuted i c (after.leader a) (after.leader b) := by
  obtain ⟨ha, hb⟩ := h.children_lt hmemo
  have hfits := (hmemo.member i h.lt).1
  have hgroup := hfits.group_lt hmemo.led
  have hregular : (memo.commuted c a b).IsRegular memo.groups.size := by
    refine ⟨?_, id⟩
    rintro g (_ | ⟨_, _ | ⟨_, ⟨⟩⟩⟩)
    · exact hb
    · exact ha
  have htype : (memo.commuted c a b).rowType memo = .ok (memo.group (memo.member i).group).rowType := by
    rw [h.rowType hmemo]
    rfl
  obtain ⟨after, hinsert⟩ := Search.exists_insert_of_rowType hmemo hgroup hregular htype rule
  obtain ⟨hadds, hisIn⟩ := Search.returns_insert hmemo hgroup hregular hinsert
  refine ⟨after, hinsert, hadds.toGrowsTo, ?_, h.isCommuted_of_isIn hmemo hadds.toGrowsTo hisIn⟩
  exact hplain.of_growsTo isStable_isPlain hmemo hadds.toGrowsTo fun m hle hlt =>
    isPlain_of_admits (hadds.added m hle hlt)

end Memo

namespace Search

/-- At any time of a search, an inner join can be commuted, and the exchanged join can be commuted
again. This comes to the join that was exchanged at first, which is found in its group. After that, and
ever after, nothing new is proposed for the two joins and for the projections that restore the order of
their columns. -/
theorem commuting_closes {planner : Planner ν} (hplanner : planner.RunsPhysically) {start : Memo ν}
    (hstart : LogicallyBuilt start) {s : Search ν} (hs : Passes planner { memo := start } s)
    {i : MemberId} {c : Expr} {a b : GroupId} (hjoin : s.memo.IsInnerJoin i c a b)
    (catalog : Catalog ν) (rule : String) :
    ∃ p after, Rule.commuteJoin.propose catalog s.memo (s.memo.member i) = [p] ∧
      Returns (insert (s.memo.member i).group rule p) s.memo () after ∧
      (∃ j, after.IsExchange j c (after.leader a) (after.leader b)) ∧
      ∀ j, after.IsExchange j c (after.leader a) (after.leader b) →
        ∃ op exprs t x y, Rule.commuteJoin.propose catalog after (after.member j) =
            [.compound (.project exprs t) [.fresh op [.group x, .group y]]] ∧
          MemberKey.of op .logical [x, y] [.logical, .logical] = (after.member i).key ∧
          Returns (materialize (.fresh op [.group x, .group y])) after (after.member i).group after ∧
          ∃ last, Returns (insert (after.member j).group rule
              (.compound (.project exprs t) [.fresh op [.group x, .group y]])) after () last ∧
            after.GrowsTo last ∧ last.Every IsPlain ∧
            ∀ later, last.GrowsTo later → later.Every IsPlain → IsRoundTrip catalog later i j := by
  obtain ⟨hrunning, -⟩ := (hstart.isRunning planner).passes hplanner.regular hs
  have hmemo := hrunning.settled
  have hplain : s.memo.Every IsPlain :=
    every_isPlain_of_passes hplanner (hstart.isRunning planner) hstart.every_isPlain hs
  obtain ⟨after, hinsert, hgrows, hplain', hcommuted⟩ := hjoin.exists_insert hmemo hplain rule
  have hmemo' := hgrows.settled
  have hjoin' := hjoin.of_growsTo hmemo hgrows
  refine ⟨_, after, hjoin.propose hmemo catalog, hinsert,
    hcommuted.exists_isExchange hmemo' hjoin', fun j hj => ?_⟩
  obtain ⟨d, hd, hother⟩ := hj.exists_isInnerJoin hjoin'
  have hback := hjoin'.isExchange hplain' hd
  refine ⟨_, _, _, _, _, hother.propose hmemo' catalog, hback.key.symm,
    hback.returns_materialize hmemo', ?_⟩
  obtain ⟨last, hinsert', hgrows', hplain'', hcommuted'⟩ := hother.exists_insert hmemo' hplain' rule
  refine ⟨last, hinsert', hgrows', hplain'', fun later hlater hplainLater => ?_⟩
  have htwice : last.AreCommuted i j c d (last.leader (after.leader a))
      (last.leader (after.leader b)) :=
    { left := hjoin'.of_growsTo hmemo' hgrows'
      right := hother.of_growsTo hmemo' hgrows'
      isExchange := hj.of_growsTo hmemo' hjoin' hgrows'
      symm := hback.of_growsTo hmemo' hother hgrows'
      leftIn := hcommuted.of_growsTo hmemo' hjoin' hgrows'
      rightIn := hcommuted' }
  exact (htwice.of_growsTo hgrows'.settled hlater).isRoundTrip hlater.settled hplainLater catalog

/-- A memo with all that is proposed for commuting a member of it. -/
def commutedOnce (memo : Memo Float) (i : MemberId) : Memo Float :=
  (Rule.commuteJoin.propose {} memo (memo.member i)).foldl (fun later p =>
    ((insert (memo.member i).group "commute" p).run.run later).2) memo

theorem commutedOnce_eq {memo after : Memo Float} {i : MemberId} {p : Proposal}
    (hpropose : Rule.commuteJoin.propose {} memo (memo.member i) = [p])
    (h : Returns (insert (memo.member i).group "commute" p) memo () after) :
    commutedOnce memo i = after := by
  unfold commutedOnce
  rw [hpropose]
  exact congrArg Prod.snd h

/-- Two tables of one column, and the pairs in which the left one is below the right one. -/
def orderedPairs : Memo Float :=
  let t : RowType := ⟨[⟨"x", .int64, true⟩]⟩
  let u : RowType := ⟨[⟨"y", .int64, true⟩]⟩
  let left := ((Memo.addLogical (.scan ⟨"s", "t"⟩ t) []).run.run (.empty : Memo Float)).2
  let right := ((Memo.addLogical (.scan ⟨"s", "u"⟩ u) []).run.run left).2
  ((Memo.addLogical (.join .inner Rule.isBelow) [0, 1]).run.run right).2

theorem logicallyBuilt_orderedPairs : LogicallyBuilt orderedPairs := by
  refine ((LogicallyBuilt.empty.addLogical _ ?_).addLogical _ ?_).addLogical _ ?_
  all_goals decide +kernel

/-- Of three members there are five with the exchanged join and the projection over it, and six with
the projection over the join that is exchanged back. -/
theorem commuting_closes_orderedPairs :
    let once := commutedOnce orderedPairs 2
    let twice := commutedOnce once 3
    (once.memberCount, twice.memberCount, twice.merges) = (5, 6, 0) ∧
      IsRoundTrip {} twice 2 3 := by
  have hwithin : Expr.IsWithin 2 Rule.isBelow := by
    unfold Expr.IsWithin
    decide +kernel
  have hjoin : orderedPairs.IsInnerJoin 2 Rule.isBelow 0 1 :=
    ⟨by decide +kernel, rfl, rfl, rfl, hwithin⟩
  have hplanner : standardPlanner.RunsPhysically := runsPhysically_of_standard Registry.standard_eq
  obtain ⟨p, after, hpropose, hinsert, -, hcloses⟩ := commuting_closes hplanner
    logicallyBuilt_orderedPairs .refl hjoin {} "commute"
  obtain rfl := commutedOnce_eq hpropose hinsert
  have hexchange : (commutedOnce orderedPairs 2).IsExchange 3 Rule.isBelow
      ((commutedOnce orderedPairs 2).leader 0) ((commutedOnce orderedPairs 2).leader 1) :=
    ⟨by decide +kernel, by decide +kernel⟩
  obtain ⟨_, _, _, _, _, hpropose', -, -, last, hinsert', hgrows, hplain, hlater⟩ :=
    hcloses 3 hexchange
  obtain rfl := commutedOnce_eq hpropose' hinsert'
  exact ⟨by decide +kernel, hlater _ hgrows.settled.growsTo_self hplain⟩

end Search

end QueryPlanner
