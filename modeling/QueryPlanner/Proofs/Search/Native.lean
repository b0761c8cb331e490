/-
# Native conventions can be reached

Where the loop of a search with the standard registry ends at a fixpoint, the goal has a winner in
every convention that the executor runs. Every operator can be pulled from, or where it scans a
foreign table, be scanned there, and from both of these conversions lead to all native conventions.
What an operator needs of its inputs is required of them, so that the argument goes down the layers
of the plan.

* `nonempty_derivation_of_winner` : winners come from derivations;
* `IsFixpoint.exists_offer_of_rule` : what a rule makes of an operator is offered in the end;
* `IsFixpoint.exists_offer` : how a logical member is implemented;
* `IsFixpoint.nonempty_derivation` : what is required of a group can be derived;
* `not_unsatisfiable_of_build` : the search for a plan does not say that there is none.
-/
import QueryPlanner.Proofs.Logical.Layers
import QueryPlanner.Proofs.Registry
import QueryPlanner.Proofs.Search.Availability
import QueryPlanner.Proofs.Search.Saturation
import QueryPlanner.Proofs.Soundness

namespace QueryPlanner

open Memo

variable {ν : Type}

namespace Search

variable {planner : Planner ν} {s t u : Search ν} {memo : Memo ν} {g : GroupId} {c : Convention}

/-! ## Winners -/

/-- Every winner comes from a derivation of its group. -/
def IsDerived (planner : Planner ν) (memo : Memo ν) : Prop :=
  ∀ g c, (memo.winner g c).isSome → Nonempty (Derivation planner memo g c)

/-- What can be derived does not depend on notes. -/
theorem nonempty_derivation_of_note {memo' : Memo ν} (hsame : SameUpTo Group.bare memo' memo)
    (h : Nonempty (Derivation planner memo g c)) : Nonempty (Derivation planner memo' g c) := by
  obtain ⟨tree⟩ := h
  induction tree with
  | @node g c m offered inputs ih =>
      have hmembers : (memo'.group g).bare.members = (memo.group g).bare.members := by
        rw [hsame.group]
      have hoffer : Offers planner memo' m g c := by
        constructor
        · change m ∈ (memo'.group g).bare.members
          rw [hmembers]
          exact offered.listed
        · rw [hsame.member]
          exact offered.physical
        · rw [hsame.member]
          exact offered.convention
        · rw [hsame.member]
          exact offered.convertible
      refine hoffer.nonempty_derivation fun slot hslot => ?_
      rw [hsame.member] at hslot
      obtain ⟨i, hi, rfl⟩ := List.getElem_of_mem hslot
      exact ih ⟨i, hi⟩

section Derived

variable [Quantity ν]

/-- A member is crowned over winners, so that it makes a derivation over theirs. -/
theorem isKeptByCrowning_isDerived : IsKeptByCrowning planner (IsDerived planner) := by
  intro memo g m x costs hg hm hphysical hcost _ _ hderived other d hsome
  have hsame := (crown_sameUpTo memo g (memo.member m).convention ⟨m, x⟩).coarsen
    Group.withoutStatistics
  refine nonempty_derivation_of_note hsame ?_
  rw [winner_crown hg] at hsome
  split at hsome
  · next heq =>
      obtain ⟨hleader, rfl⟩ := heq
      obtain ⟨hconvertible, -, -⟩ := costOf_eq_some_iff.mp hcost
      have hoffer : Offers planner memo m g (memo.member m).convention :=
        ⟨hm, hphysical, rfl, hconvertible⟩
      refine nonempty_derivation_congr (hoffer.nonempty_derivation fun slot hslot => ?_) hleader.symm
      obtain ⟨w, hw, -⟩ := exists_winner_of_mem_slots hcost hslot
      exact hderived slot.1 slot.2 (by rw [hw]; rfl)
  · exact hderived other d hsome

/-- When winners were found, whatever has one can be derived. -/
theorem nonempty_derivation_of_winner (hs : s.memo.Settled)
    (h : Returns (findWinners planner) s () t) (hsome : (t.memo.winner g c).isSome) :
    Nonempty (Derivation planner t.memo g c) := by
  have hderived := (returns_findWinners hs.led h isKeptByCrowning_isDerived
    fun memo _ hnone g c hsome => by
      rw [hnone] at hsome
      cases hsome).1
  exact hderived g c hsome

/-- What can be derived when the loop has ended has a winner in the end. -/
theorem isSome_of_derivation (hrules : ∀ rule ∈ planner.registry.rules,
      rule.IsRegular planner.catalog) (hs : IsRunning planner s) {root : GroupId} {goal : Goal ν}
    (hderivation : Nonempty (Derivation planner s.memo root goal.convention))
    {r : Option (Winner ν)} (h : Returns (settleGoal planner root goal) s r t) : r.isSome := by
  obtain ⟨hpasses, -⟩ := returns_settleGoal_moves hrules hs h
  obtain ⟨-, hgrows⟩ := hs.passes hrules hpasses
  obtain ⟨u, hu, hfind⟩ := exists_findWinners_of_settleGoal hrules hs h
  obtain ⟨tree⟩ := hderivation
  rw [← (settleGoal_cases h).1]
  exact isSome_winner_of_findWinners hu.settled hfind
    (nonempty_derivation_of_growsTo hs.settled hgrows tree)

end Derived

/-! ## Implementations -/

/-- A physical operator that was proposed and is no converter is offered, over inputs that are asked
for the convention that it needs of them. -/
theorem exists_offer_of_isIn (hmemo : memo.Settled) (hg : g < memo.groups.size) {op : Operator}
    {children : List GroupId} (hkind : op.kind ≠ .converter) (hc : c ≠ .logical)
    (h : (Proposal.uniform op c children).IsIn memo g) :
    ∃ m, Offers planner memo m g c ∧ ∀ slot ∈ (memo.member m).slots, ∃ child ∈ children,
      memo.leader slot.1 = memo.leader child ∧ slot.2 = c ∧
        slot.2 ∈ (memo.group slot.1).required := by
  rcases h with rfl | ⟨⟨m, hm, op', hop, hentry⟩, hrequired⟩
  · exact absurd rfl hkind
  · refine ⟨m, ⟨hmemo.mem_group_iff.mpr ⟨hg, hm, hentry.group⟩, ?_, hentry.convention, ?_⟩, ?_⟩
    · unfold Member.isLogical
      rw [hentry.convention]
      exact decide_eq_false hc
    · intro source hsource
      refine absurd ?_ hkind
      rw [← Operator.kind_canonical, ← hop, Operator.kind_canonical, ← hentry.op, hsource]
      rfl
    · intro slot hslot
      unfold Member.slots at hslot
      rw [hentry.children, hentry.inputs, List.map_map, List.map_map, List.map_map,
        List.zip_map'] at hslot
      obtain ⟨child, hchild, rfl⟩ := List.mem_map.mp hslot
      have hself := hmemo.led.leader_leader child
      refine ⟨child, hchild, hself, rfl, ?_⟩
      have hasked : c ∈ (memo.group child).required :=
        hrequired (child, c) (List.mem_map_of_mem hchild)
      rwa [← required_congr hself] at hasked

section Standard

variable [Quantity ν] (hregistry : planner.registry = .builtin)

include hregistry

/-- In a fixpoint, the operator of a member is offered as a rule proposes it, over the inputs that it
proposes for the member as it was at some time. -/
theorem IsFixpoint.exists_offer_of_rule (hs : IsRunning planner s)
    (hnew : ∀ m hash, s.memo.wasApplied m hash = false) (hpasses : Passes planner s u)
    (hfix : IsFixpoint planner u.memo) {m : MemberId} (hm : m < u.memo.members.size)
    (hkind : (u.memo.member m).op.kind ≠ .converter) {rule : Rule ν}
    (hrule : rule ∈ planner.registry.rules)
    (hmet : rule.pattern.isMetBy u.memo (u.memo.member m) = true) (hc : c ≠ .logical)
    {inputs : Member → List GroupId}
    (hproposes : ∀ memo member, member.op = (u.memo.member m).op →
      .uniform member.op c (inputs member) ∈ rule.propose planner.catalog memo member) :
    ∃ earlier : Memo ν, earlier.GrowsTo u.memo ∧ m < earlier.members.size ∧
      ∃ i, Offers planner u.memo i (u.memo.member m).group c ∧
        ∀ slot ∈ (u.memo.member i).slots, ∃ child ∈ inputs (earlier.member m),
          u.memo.leader slot.1 = u.memo.leader child ∧ slot.2 = c ∧
            slot.2 ∈ (u.memo.group slot.1).required := by
  have hrules : ∀ rule ∈ planner.registry.rules, rule.IsRegular planner.catalog :=
    Rule.isRegular_of_eq_standard (congrArg Registry.rules hregistry)
  have hhashes : (planner.registry.rules.map Rule.hash).Nodup := by
    rw [hregistry]
    exact Rule.nodup_hash_standard
  obtain ⟨hu, -⟩ := hs.passes hrules hpasses
  obtain ⟨hfits, -⟩ := hu.settled.member m hm
  obtain ⟨earlier, -, hafter, hlt, -, hall⟩ :=
    hfix.isIn hrules hhashes hs hnew hpasses hm hrule hmet
  have hin := hall _ (hproposes earlier _ (hafter.op_eq hlt).symm)
  rw [← hafter.op_eq hlt] at hin
  obtain ⟨i, hoffer, hslots⟩ :=
    exists_offer_of_isIn hu.settled (hfits.group_lt hu.settled.led) hkind hc hin
  exact ⟨earlier, hafter, hlt, i, hoffer, hslots⟩

/-- In a fixpoint, a logical member is pulled from, or scanned at its foreign source. Its inputs are
asked for what is pulled from. -/
theorem IsFixpoint.exists_offer (hs : IsRunning planner s)
    (hnew : ∀ m hash, s.memo.wasApplied m hash = false) (hpasses : Passes planner s u)
    (hfix : IsFixpoint planner u.memo) {m : MemberId} (hm : m < u.memo.members.size)
    (hlogical : (u.memo.member m).convention = .logical)
    (hkind : (u.memo.member m).op.kind ≠ .converter) :
    ∃ c ∈ [Convention.iterator, .federated], ∃ i, Offers planner u.memo i (u.memo.member m).group c ∧
      ∀ slot ∈ (u.memo.member i).slots, ∃ child ∈ (u.memo.member m).children,
        u.memo.leader slot.1 = u.memo.leader child ∧ slot.2 = .iterator ∧
          slot.2 ∈ (u.memo.group slot.1).required := by
  have hrules : ∀ rule ∈ planner.registry.rules, rule.IsRegular planner.catalog :=
    Rule.isRegular_of_eq_standard (congrArg Registry.rules hregistry)
  obtain ⟨hu, -⟩ := hs.passes hrules hpasses
  obtain ⟨hfits, -⟩ := hu.settled.member m hm
  have hmet : (Pattern.logical (u.memo.member m).op.kind).isMetBy u.memo (u.memo.member m) = true :=
    Pattern.isMetBy_logical hlogical hfits.length_children
  -- whether the scan of a foreign table is proposed depends on the operator alone
  have hscans : ∀ member : Member, member.op = (u.memo.member m).op →
      Rule.scansFederated planner.catalog member =
        Rule.scansFederated planner.catalog (u.memo.member m) := by
    intro member hop
    unfold Rule.scansFederated
    rw [hop]
  by_cases hforeign : Rule.scansFederated planner.catalog (u.memo.member m) = true
  · have hrule : Rule.scanFederated ∈ planner.registry.rules := by
      rw [hregistry]
      show Rule.scanFederated ∈ Rule.standard
      simp [Rule.standard, Rule.implementations]
    have hscan : (u.memo.member m).op.kind = .scan := by
      unfold Rule.scansFederated at hforeign
      split at hforeign
      · next hop => rw [hop]; rfl
      · cases hforeign
    rw [hscan] at hmet
    have hproposes : ∀ (memo : Memo ν) member, member.op = (u.memo.member m).op →
        .uniform member.op .federated [] ∈ Rule.scanFederated.propose planner.catalog memo member := by
      intro memo member hop
      unfold Rule.scanFederated
      dsimp only
      rw [if_pos ((hscans member hop).trans hforeign)]
      exact List.mem_singleton_self _
    obtain ⟨earlier, -, -, i, hoffer, hslots⟩ := hfix.exists_offer_of_rule hregistry hs hnew hpasses
      hm hkind hrule hmet (by decide) hproposes
    refine ⟨.federated, by decide, i, hoffer, fun slot hslot => ?_⟩
    obtain ⟨child, hchild, -⟩ := hslots slot hslot
    exact absurd hchild List.not_mem_nil
  · have hrule : Rule.pull (u.memo.member m).op.kind ∈ planner.registry.rules := by
      rw [hregistry]
      show Rule.pull (u.memo.member m).op.kind ∈ Rule.standard
      revert hkind
      cases (u.memo.member m).op.kind <;> simp [Rule.standard, Rule.implementations]
    have hproposes : ∀ (memo : Memo ν) member, member.op = (u.memo.member m).op →
        .uniform member.op .iterator member.children ∈
          (Rule.pull (u.memo.member m).op.kind).propose planner.catalog memo member := by
      intro memo member hop
      unfold Rule.pull
      dsimp only
      rw [if_neg ((hscans member hop).trans_ne hforeign)]
      exact List.mem_singleton_self _
    obtain ⟨earlier, hafter, hlt, i, hoffer, hslots⟩ := hfix.exists_offer_of_rule hregistry hs hnew
      hpasses hm hkind hrule hmet (by decide) hproposes
    refine ⟨.iterator, by decide, i, hoffer, fun slot hslot => ?_⟩
    obtain ⟨child, hchild, hleader, hasked⟩ := hslots slot hslot
    refine ⟨u.memo.leader child, ?_, hleader.trans (hu.settled.led.leader_leader child).symm, hasked⟩
    rw [hafter.children_eq hlt]
    exact List.mem_map_of_mem hchild

/-- The built-in convertlets lead from what can be pulled from or fetched to all native conventions. -/
theorem leads_of_mem_native {source : Convention} (hsource : source ∈ [Convention.iterator, .federated])
    (hc : c ∈ [Convention.iterator, .compiled, .compiledRecord]) :
    Conversions.Leads planner.registry.conversions source c := by
  have hhop : ∀ hop ∈ [(.federated, .iterator), (.iterator, .compiled), (.compiled, .iterator),
      (.compiled, .compiledRecord), (.compiledRecord, .compiled)],
      Conversions.Leads planner.registry.conversions hop.1 hop.2 := by
    rw [hregistry]
    exact fun hop hhop => .single (Conversions.mem_builtin.mpr hhop)
  have hiterator : Conversions.Leads planner.registry.conversions source .iterator := by
    rcases List.mem_pair.mp hsource with rfl | rfl
    · exact .refl
    · exact hhop (.federated, .iterator) (by decide)
  have hcompiled := hiterator.trans (hhop (.iterator, .compiled) (by decide))
  simp only [List.mem_cons, List.not_mem_nil, or_false] at hc
  rcases hc with rfl | rfl | rfl
  · exact hiterator
  · exact hcompiled
  · exact hcompiled.trans (hhop (.compiled, .compiledRecord) (by decide))

/-- In a fixpoint, whatever native convention is required of a group of the plan can be derived. The
induction is on the number that the group had at first. -/
theorem IsFixpoint.nonempty_derivation (hs : IsRunning planner s)
    (hnew : ∀ m hash, s.memo.wasApplied m hash = false) (hpasses : Passes planner s u)
    (hfix : IsFixpoint planner u.memo) (hlayered : s.memo.IsLayered) (g : GroupId)
    (hg : g < s.memo.groups.size) :
    ∀ c ∈ [Convention.iterator, .compiled, .compiledRecord], c ∈ (u.memo.group g).required →
      Nonempty (Derivation planner u.memo g c) := by
  have hrules : ∀ rule ∈ planner.registry.rules, rule.IsRegular planner.catalog :=
    Rule.isRegular_of_eq_standard (congrArg Registry.rules hregistry)
  have hends : ∀ hop ∈ planner.registry.conversions, hop.2 ≠ .logical := by
    rw [hregistry]
    intro hop hhop
    obtain ⟨convertlet, hconvertlet, rfl⟩ := List.mem_map.mp ((Registry.builtin.bridged hop).mp hhop)
    exact (Convertlet.ne_logical_of_mem_builtin convertlet hconvertlet).2
  obtain ⟨hu, hgrows⟩ := hs.passes hrules hpasses
  have hled := hu.settled.led
  induction g using Nat.strong_induction_on with
  | _ g ih =>
      intro c hc hrequired
      have hgu := Nat.lt_of_lt_of_le hg hgrows.groups
      have hself := hled.leader_leader g
      obtain ⟨op, children, hkind, hbelow, hhas⟩ := hlayered g hg
      obtain ⟨m, hm, op', hop, hentry⟩ := hgrows.has hs.settled hhas
      have hkind' : (u.memo.member m).op.kind ≠ .converter := by
        rw [hentry.op, ← Operator.kind_canonical, hop, Operator.kind_canonical]
        exact hkind
      obtain ⟨source, hsource, i, hoffer, hslots⟩ :=
        hfix.exists_offer hregistry hs hnew hpasses hm hentry.convention hkind'
      rw [hentry.group] at hoffer
      -- what the implementation reads is derived by induction
      have hbase : Nonempty (Derivation planner u.memo (u.memo.leader g) source) := by
        refine hoffer.nonempty_derivation fun slot hslot => ?_
        obtain ⟨child, hchild, hleader, hconvention, hasked⟩ := hslots slot hslot
        rw [hentry.children] at hchild
        obtain ⟨first, hfirst, rfl⟩ := List.mem_map.mp hchild
        rw [hled.leader_leader] at hleader
        have hlt := hbelow first hfirst
        rw [required_congr hleader, hconvention] at hasked
        have hinput := ih first hlt (Nat.lt_trans hlt hg) .iterator (by decide) hasked
        rw [hconvention]
        exact nonempty_derivation_congr hinput hleader.symm
      have hlive := hled.leader_mem_liveGroups hgu
      have hphysical : ∀ c ∈ [Convention.iterator, .compiled, .compiledRecord],
          c.isLogical = false := by
        decide
      rw [← required_congr hself] at hrequired
      have hchained := hfix.connected _ hlive c hrequired (hphysical c hc) i hoffer.listed
        hoffer.physical
      rw [hoffer.convention] at hchained
      exact nonempty_derivation_congr (nonempty_derivation_of_isChained hu.settled
        (hled.leader_lt hgu) hends hchained (leads_of_mem_native hregistry hsource hc) hbase) hself

end Standard

/-! ## Plans -/

/-- The native conventions can be reached from every plan. For a memo that was built for a relation,
the standard registry, any costs, any tables, local or foreign, any budget and any ceiling, and a
native goal: if no budget ends the loop, then the goal has a winner as soon as winners are found, which
only fails where a cost cannot be computed, and the search does not say that there is no plan. -/
theorem not_unsatisfiable_of_build {tables : List Request.Table} {relation : Request.Relation}
    {root : GroupId} {memo : Memo Float} {planner : Planner Float} {goal : Goal Float}
    {u : Search Float} (hbuild : (Request.build tables relation).run.run {} = (.ok root, memo))
    (hregistry : Registry.standard = .ok planner.registry)
    (hgoal : goal.convention ∈ [Convention.iterator, .compiled, .compiledRecord])
    (hexpand : Returns (expand planner root goal (planner.budget.iterations + 1))
      { memo := memo.require root goal.convention } false u) :
    (∀ t, Returns (findWinners planner) u () t → ∃ w, t.memo.winner root goal.convention = some w ∧
      Returns (settleGoal planner root goal) u (some w) t) ∧
    ∀ kind c, ((optimize planner root goal).run.run { memo := memo }).1 ≠
      .error (.unsatisfiable kind c) := by
  have hstandard : planner.registry = .builtin :=
    Except.ok.inj (hregistry.symm.trans Registry.standard_eq)
  have hrules : ∀ rule ∈ planner.registry.rules, rule.IsRegular planner.catalog :=
    Rule.isRegular_of_eq_standard (congrArg Registry.rules hstandard)
  obtain ⟨hbuilt, hlayered, hroot⟩ := Request.layers_of_build hbuild
  obtain ⟨hsettled, hnew, -⟩ := hbuilt.entries
  have hstart := hbuilt.isRunning planner
  have hrequire : Move planner { memo := memo } { memo := memo.require root goal.convention } :=
    .require root goal.convention
  obtain ⟨hrequired, -⟩ := hstart.move hrules hrequire
  obtain ⟨hpasses, hended⟩ := returns_expand hrules hrequired hexpand
  obtain ⟨hu, hgrows⟩ := hrequired.passes hrules hpasses
  have hderivation : Nonempty (Derivation planner u.memo root goal.convention) := by
    rcases hended rfl with hfix | ⟨-, v, hv, hfind, hsome⟩
    · refine hfix.nonempty_derivation hstandard hstart hnew
        ((Relation.ReflTransGen.single hrequire).trans hpasses) hlayered root hroot _ hgoal ?_
      exact hgrows.required root _
        ((mem_required_require hsettled.led hroot).mpr (Or.inr ⟨rfl, rfl⟩))
    · exact nonempty_derivation_of_winner hv.settled hfind hsome
  constructor
  · intro t hfind
    obtain ⟨-, hsame, -⟩ := passes_findWinners hfind
    obtain ⟨w, hw⟩ := Option.isSome_iff_exists.mp (isSome_winner_of_findWinners hu.settled hfind
      (nonempty_derivation_of_note hsame hderivation))
    refine ⟨w, hw, ?_⟩
    unfold settleGoal
    refine returns_bind.mpr ⟨(), t, hfind, returns_bind.mpr ⟨t.memo, t, rfl, ?_⟩⟩
    rw [hw]
    rfl
  · intro kind c hfails
    exact isInternal_of_optimize (s := { memo := memo }) hrules hrequired hexpand
      (fun _ _ r t hsettle => isSome_of_derivation hrules hu hderivation hsettle) hfails trivial

/-- The large ones of the foreign numbers, as records for generated code: the loop of the search is
not cut short, and the search does not say that there is no plan. -/
theorem not_unsatisfiable_of_build_largeNumbers :
    ∃ registry memo u, Registry.standard = .ok registry ∧
      (Request.build [numbers] largeNumbers).run.run {} = (.ok 1, memo) ∧
      Returns (expand ⟨registry, RowWork.standard.model, Request.catalog [numbers], {}⟩ 1
        ⟨.compiledRecord, none⟩ 1000001) { memo := memo.require 1 .compiledRecord } false u ∧
      ∀ kind c, ((optimize ⟨registry, RowWork.standard.model, Request.catalog [numbers], {}⟩ 1
        ⟨.compiledRecord, none⟩).run.run { memo := memo }).1 ≠ .error (.unsatisfiable kind c) := by
  have hroot : ((Request.build [numbers] largeNumbers).run.run {}).1 = .ok 1 := by
    decide +kernel
  have hended : ∀ memo, memo = ((Request.build [numbers] largeNumbers).run.run {}).2 →
      ((expand ⟨.builtin, RowWork.standard.model, Request.catalog [numbers], {}⟩ 1 ⟨.compiledRecord, none⟩ 1000001
          ).run.run { memo := memo.require 1 .compiledRecord }).1.toOption = some false := by
    rintro _ rfl
    decide +kernel
  -- from here on the memo is only a name, so that nothing evaluates the search again
  obtain ⟨memo, hmemo⟩ : ∃ memo, memo = ((Request.build [numbers] largeNumbers).run.run {}).2 :=
    ⟨_, rfl⟩
  have hexpand := returns_of_toOption (hended memo hmemo)
  have hbuild : (Request.build [numbers] largeNumbers).run.run {} = (.ok 1, memo) :=
    Prod.ext hroot hmemo.symm
  obtain ⟨-, hplanned⟩ := not_unsatisfiable_of_build hbuild Registry.standard_eq
    (by decide) hexpand
  exact ⟨_, memo, _, Registry.standard_eq, hbuild, hexpand, hplanned⟩

end Search

end QueryPlanner
