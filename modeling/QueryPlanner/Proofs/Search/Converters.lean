/-
# Inserting converters

A converter reads the group that it is in, so that inserting one never merges groups: either the
group has it, and the memo stays as it is, or it is a new member. A chain of converters counts as
tried only once all of it is there, and it stays there.

* `Settled.run_addConverter` : what inserting a converter does to the memo;
* `Converts` : a memo grew by nothing but converters;
* `IsConnected` : the chains from all that a group has to all that is needed of it;
* `IsConverting`, `ConvertedFrom` : what conversions rely on, and what they leave;
* `returns_convert`, `returns_convertGroup`, `returns_convertAll` : a conversion pass, step by step.
-/
import QueryPlanner.Proofs.Memo.Progress
import QueryPlanner.Proofs.Search.Invariants

namespace QueryPlanner

variable {ν : Type}

/-- A converter has no literals. -/
theorem Operator.eq_converter_of_canonical {op : Operator} {source : Convention}
    (h : op.canonical = (Operator.converter source).canonical) : op = .converter source := by
  cases op with
  | converter c => exact h
  | _ => cases h

namespace Memo

variable {memo before mid after : Memo ν} {g : GroupId} {hop : Convention × Convention}

/-! ## Single converters -/

/-- A member that converts its input to another convention reads its own group. -/
def IsOwn (_ : Memo ν) (m : Member) : Prop :=
  ∀ source, m.op = .converter source → m.inputs = [source] → source ≠ m.convention →
    m.children = [m.group]

/-- All converters read their own groups. -/
abbrev OwnsConverters (memo : Memo ν) : Prop := memo.Every IsOwn

theorem isStable_isOwn : IsStable (IsOwn (ν := ν)) := by
  intro before after m _ h hm hown source hop hinputs hne
  rw [h.op_eq hm] at hop
  rw [h.inputs_eq hm] at hinputs
  rw [h.convention_eq hm] at hne
  rw [h.children_eq hm, h.group_eq hm, hown source hop hinputs hne]
  rfl

/-- A group has the converter of a hop, which reads the group itself. -/
abbrev HasConverter (memo : Memo ν) (g : GroupId) (hop : Convention × Convention) : Prop :=
  memo.Has g (.converter hop.1) hop.2 [g] [hop.1]

theorem HasConverter.congr {other : GroupId} (h : memo.HasConverter g hop)
    (hl : memo.leader g = memo.leader other) : memo.HasConverter other hop := by
  obtain ⟨m, hm, op, hop, hentry⟩ := Has.congr h hl
  refine ⟨m, hm, op, hop, hentry.group, hentry.op, hentry.convention, ?_, hentry.inputs⟩
  rw [hentry.children, List.map_singleton, List.map_singleton, hl]

/-- A group has a converter if one of its members is that converter. -/
theorem Settled.hasConverter_iff (h : memo.Settled) (hg : g < memo.groups.size) :
    memo.HasConverter g hop ↔ ∃ m ∈ (memo.group g).members, (memo.member m).op = .converter hop.1 ∧
      (memo.member m).convention = hop.2 ∧ (memo.member m).inputs = [hop.1] ∧
      (memo.member m).children = [memo.leader g] := by
  constructor
  · rintro ⟨m, hm, op, hop, hentry⟩
    refine ⟨m, h.mem_group_iff.mpr ⟨hg, hm, hentry.group⟩, ?_, hentry.convention, hentry.inputs,
      hentry.children⟩
    rw [hentry.op, Operator.eq_converter_of_canonical hop]
  · rintro ⟨m, hm, hop, hconvention, hinputs, hchildren⟩
    obtain ⟨-, hlt, hgroup⟩ := h.mem_group_iff.mp hm
    exact ⟨m, hlt, _, rfl, hgroup, hop, hconvention, hchildren, hinputs⟩

/-- Inserting a converter leaves the memo as it is if the group has it, and else adds a member to
the group: what is known for its key reads the group, and is in it for that reason. -/
theorem Settled.run_addConverter (h : memo.Settled) (howns : memo.OwnsConverters) (g : GroupId)
    (hne : hop.1 ≠ hop.2) (origin : String) :
    (memo.HasConverter g hop ∧ ∃ m,
      (Memo.addTo g (.converter hop.1) hop.2 [g] [hop.1] origin).run.run memo = (.ok m, memo)) ∨
    ¬ memo.HasConverter g hop ∧
      (Memo.addTo g (.converter hop.1) hop.2 [g] [hop.1] origin).run.run memo =
        (.ok memo.members.size,
          memo.pushMember (memo.leader g) (.converter hop.1) hop.2 [memo.leader g] [hop.1]) := by
  rw [run_addTo, List.map_singleton]
  rcases hindex : memo.index.get? (.of (.converter hop.1) hop.2 [memo.leader g] [hop.1]) with _ | m
  · have hderive : memo.deriveRowType (.converter hop.1) [memo.leader g] [hop.1] =
        .ok (memo.group (memo.leader g)).rowType := rfl
    refine Or.inr ⟨h.not_has_of_index hindex, ?_⟩
    dsimp only
    rw [hderive]
    exact if_neg (not_not.mpr rfl)
  · obtain ⟨hm, hkey⟩ := h.knows _ _ hindex
    unfold Member.key MemberKey.of at hkey
    obtain ⟨hchildren, hconvention, hinputs, hop'⟩ := MemberKey.mk.inj hkey
    have hop'' := Operator.eq_converter_of_canonical hop'
    have hown := howns m hm hop.1 hop'' hinputs (hconvention ▸ hne)
    have howner : (memo.member m).group = memo.leader g := by
      rw [hown] at hchildren
      exact List.cons.inj hchildren |>.1
    refine Or.inl ⟨⟨m, hm, _, rfl, howner, hop'', hconvention, hchildren, hinputs⟩, m, ?_⟩
    dsimp only
    exact if_neg (not_not.mpr howner)

/-! ## Growing by converters -/

/-- A member that is the converter of a registered conversion. -/
def IsConversion (conversions : Conversions) (memo : Memo ν) (m : Member) : Prop :=
  ∃ g, ∃ hop ∈ conversions, hop.1 ≠ hop.2 ∧
    memo.IsEntry g (.converter hop.1) hop.2 [g] [hop.1] m

theorem isStable_isConversion (conversions : Conversions) :
    IsStable (IsConversion (ν := ν) conversions) := by
  rintro before after m hbefore h hm ⟨g, hop, hhop, hne, hentry⟩
  exact ⟨g, hop, hhop, hne, isStable_isEntry g _ _ _ _ before after m hbefore h hm hentry⟩

/-- A memo grows by nothing but converters, and stays as it is if it has no new member. -/
structure Converts (conversions : Conversions) (before after : Memo ν) : Prop
    extends before.AddsTo (IsConversion conversions) after where
  size_eq : after.groups.size = before.groups.size
  merges_eq : after.merges = before.merges
  idle : after.members.size = before.members.size → after = before

variable {conversions : Conversions}

theorem Settled.converts_self (h : memo.Settled) : Converts conversions memo memo where
  toAddsTo := h.addsTo_self
  size_eq := rfl
  merges_eq := rfl
  idle _ := rfl

theorem Converts.trans (h : Converts conversions before mid) (h' : Converts conversions mid after) :
    Converts conversions before after where
  toAddsTo := h.toAddsTo.trans h'.toAddsTo (isStable_isConversion conversions)
  size_eq := h'.size_eq.trans h.size_eq
  merges_eq := h'.merges_eq.trans h.merges_eq
  idle hsize := by
    have hmid : mid.members.size = before.members.size :=
      Nat.le_antisymm (hsize ▸ h'.members) h.members
    rw [h'.idle (hsize.trans hmid.symm), h.idle hmid]

/-- When a converter was inserted, the group has it; if it had it before, nothing changed. -/
theorem Settled.returns_addConverter (h : memo.Settled) (howns : memo.OwnsConverters)
    (hg : g < memo.groups.size) (hhop : hop ∈ conversions ∧ hop.1 ≠ hop.2) {origin : String}
    {m : MemberId}
    (hrun : Returns (Memo.addTo g (.converter hop.1) hop.2 [g] [hop.1] origin) memo m after) :
    Converts conversions memo after ∧ after.HasConverter g hop ∧
      (memo.HasConverter g hop → after = memo) := by
  obtain ⟨hadds, hhas, hsize⟩ := h.returns_addTo hg (List.forall_mem_singleton.mpr hg) hrun
  have hadds' : memo.AddsTo (IsConversion conversions) after :=
    hadds.imp fun m hm => ⟨g, hop, hhop.1, hhop.2, hm⟩
  unfold Returns at hrun
  rcases h.run_addConverter howns g hhop.2 origin with ⟨-, m', hold⟩ | ⟨hnew, hpushed⟩
  · rw [hold] at hrun
    cases hrun
    exact ⟨⟨hadds', rfl, rfl, fun _ => rfl⟩, hhas, fun _ => rfl⟩
  · rw [hpushed] at hrun
    cases hrun
    have hmembers : (memo.pushMember (memo.leader g) (.converter hop.1) hop.2 [memo.leader g]
        [hop.1]).members.size = memo.members.size + 1 := Array.size_push ..
    refine ⟨⟨hadds', hsize, rfl, fun hsame => ?_⟩, hhas, fun hold => absurd hold hnew⟩
    rw [hmembers] at hsame
    exact absurd hsame (Nat.succ_ne_self _)

/-- Converters read their own groups. -/
theorem IsConversion.isOwn {m : Member} (h : IsConversion conversions memo m) : memo.IsOwn m := by
  obtain ⟨g, hop, -, -, hentry⟩ := h
  intro _ _ _ _
  rw [hentry.children, hentry.group]
  rfl

theorem Converts.ownsConverters (h : Converts conversions before after) (hbefore : before.Settled)
    (howns : before.OwnsConverters) : after.OwnsConverters := by
  refine howns.of_growsTo isStable_isOwn hbefore h.toGrowsTo fun m hle hm => ?_
  exact (h.added m hle hm).isOwn

/-! ## Chains -/

/-- A group has all converters on the way from one convention to another, if there is one. -/
def IsChained (conversions : Conversions) (memo : Memo ν) (g : GroupId)
    (source target : Convention) : Prop :=
  ∀ path, conversions.path source target = some path → ∀ hop ∈ hops path, memo.HasConverter g hop

theorem IsChained.of_growsTo {source target : Convention}
    (h : IsChained conversions before g source target) (hbefore : before.Settled)
    (hgrows : before.GrowsTo after) : IsChained conversions after g source target :=
  fun path hpath hop hhop => hgrows.has hbefore (h path hpath hop hhop)

/-- From every convention that a group has physical members in, in one memo, another memo has the
chain to every convention that was needed of it. -/
def Connected (conversions : Conversions) (before after : Memo ν) (g : GroupId) : Prop :=
  ∀ target ∈ (before.group g).required, target.isLogical = false →
    ∀ m ∈ (before.group g).members, (before.member m).isLogical = false →
      IsChained conversions after g (before.member m).convention target

/-- A group has the chains from all that it has to all that is needed of it. -/
abbrev IsConnected (conversions : Conversions) (memo : Memo ν) (g : GroupId) : Prop :=
  Connected conversions memo memo g

/-- Fewer needs are met by more converters. -/
theorem Connected.mono {last : Memo ν} (h : Connected conversions mid after g) (hbefore : before.Settled)
    (hmid : before.GrowsTo mid) (hafter : after.Settled) (hlast : after.GrowsTo last) :
    Connected conversions before last g := by
  intro target htarget hphysical m hm hlogical
  have hlt := hbefore.lt_of_mem_group hm
  have hchained := h target (hmid.required g target htarget) hphysical m (hmid.mem_group hbefore hm)
    (by rw [hmid.isLogical_eq hlt]; exact hlogical)
  rw [hmid.convention_eq hlt] at hchained
  exact hchained.of_growsTo hafter hlast

end Memo

namespace Search

open Memo

variable {planner : Planner ν} {bounded : Bool} {g : GroupId} {s t u : Search ν} {b : Bool}

/-! ## Passes -/

/-- What conversions rely on: converters read their own groups, and the chains that count as tried
are there. -/
structure IsConverting (conversions : Conversions) (s : Search ν) : Prop where
  settled : s.memo.Settled
  owns : s.memo.OwnsConverters
  tried : ∀ x ∈ s.attempted, IsChained conversions s.memo x.1 x.2.1 x.2.2

/-- What conversions leave: some converters more, and the memo as it was if nothing was missing. -/
structure ConvertedFrom (conversions : Conversions) (s : Search ν) (complete : Prop) (t : Search ν) :
    Prop where
  converting : IsConverting conversions t
  converts : Converts conversions s.memo t.memo
  idle : complete → t.memo = s.memo

variable {conversions : Conversions} {complete complete' : Prop}

theorem IsConverting.refl (h : IsConverting conversions s) : ConvertedFrom conversions s complete s where
  converting := h
  converts := h.settled.converts_self
  idle _ := rfl

theorem ConvertedFrom.trans (h : ConvertedFrom conversions s complete u)
    (h' : ConvertedFrom conversions u complete' t)
    (hcomplete : complete → u.memo = s.memo → complete') : ConvertedFrom conversions s complete t where
  converting := h'.converting
  converts := h.converts.trans h'.converts
  idle hc := (h'.idle (hcomplete hc (h.idle hc))).trans (h.idle hc)

/-- The converter of a hop is inserted, unless the budget does not allow it. -/
theorem returns_insertHop {hop : Convention × Convention}
    (hhop : hop ∈ planner.registry.conversions ∧ hop.1 ≠ hop.2)
    (hs : IsConverting planner.registry.conversions s) (hg : g < s.memo.groups.size)
    (h : Returns (insertHop planner bounded g hop) s b t) :
    ConvertedFrom planner.registry.conversions s (s.memo.HasConverter g hop) t ∧
      (b = true → t.memo.HasConverter g hop) := by
  have hadd : ∀ u : Search ν, u.memo = s.memo → u.attempted = s.attempted → Returns (do
        let _ ← edit (Memo.addTo g (.converter hop.1) hop.2 [g] [hop.1] converterOrigin)
        return true) u b t →
      ConvertedFrom planner.registry.conversions s (s.memo.HasConverter g hop) t ∧
        t.memo.HasConverter g hop := by
    intro u hmemo htried h
    obtain ⟨m, v, hedit, hpure⟩ := returns_bind.mp h
    obtain ⟨rfl, rfl⟩ := returns_pure.mp hpure
    obtain ⟨after, hrun, rfl⟩ := returns_edit.mp hedit
    rw [hmemo] at hrun
    obtain ⟨hgrows, hhas, hidle⟩ := hs.settled.returns_addConverter hs.owns hg hhop hrun
    refine ⟨⟨⟨hgrows.settled, hgrows.ownsConverters hs.settled hs.owns, fun x hx => ?_⟩, hgrows,
      hidle⟩, hhas⟩
    exact (hs.tried x (htried ▸ hx)).of_growsTo hs.settled hgrows.toGrowsTo
  unfold insertHop at h
  cases bounded with
  | false =>
      obtain ⟨hafter, hhas⟩ := hadd s rfl rfl h
      exact ⟨hafter, fun _ => hhas⟩
  | true =>
      obtain ⟨goesOn, v, hspend, hrest⟩ := returns_bind.mp h
      rcases returns_spend hspend with ⟨rfl, -, rfl⟩ | ⟨rfl, -, rfl⟩
      · obtain ⟨rfl, rfl⟩ := returns_pure.mp hrest
        have hafter : IsConverting planner.registry.conversions { s with cutShort := true } :=
          ⟨hs.settled, hs.owns, hs.tried⟩
        exact ⟨⟨hafter, hs.settled.converts_self, fun _ => rfl⟩, fun hb => absurd hb (by decide)⟩
      · obtain ⟨hafter, hhas⟩ := hadd { s with iterations := s.iterations + 1 } rfl rfl hrest
        exact ⟨hafter, fun _ => hhas⟩

/-- What is noted as tried is there. -/
theorem returns_markAttempted {source target : Convention} {x : Unit}
    (hs : IsConverting conversions s) (hchained : IsChained conversions s.memo g source target)
    (h : Returns (markAttempted g source target) s x t) :
    IsConverting conversions t ∧ t.memo = s.memo := by
  obtain rfl := returns_modify.mp h
  exact ⟨⟨hs.settled, hs.owns, List.forall_mem_cons.mpr ⟨hchained, hs.tried⟩⟩, rfl⟩

/-- The chain between two conventions is inserted, unless the budget does not allow it. -/
theorem returns_convert {source target : Convention}
    (hs : IsConverting planner.registry.conversions s) (hg : g < s.memo.groups.size)
    (h : Returns (convert planner bounded g source target) s b t) :
    ConvertedFrom planner.registry.conversions s
        (IsChained planner.registry.conversions s.memo g source target) t ∧
      (b = true → IsChained planner.registry.conversions t.memo g source target) := by
  unfold convert at h
  obtain ⟨_, _, hget, hrest⟩ := returns_bind.mp h
  obtain ⟨hread, hstate⟩ := returns_get.mp hget
  rw [hread, hstate] at hrest
  split at hrest
  · next hskip =>
      obtain ⟨rfl, rfl⟩ := returns_pure.mp hrest
      refine ⟨hs.refl, fun _ path hpath => ?_⟩
      rw [Bool.or_eq_true, decide_eq_true_iff, List.contains_iff_mem] at hskip
      rcases hskip with hsame | htried
      · unfold Conversions.path at hpath
        rw [if_pos hsame] at hpath
        cases hpath
      · exact hs.tried _ htried path hpath
  · split at hrest
    · next hnone =>
        obtain ⟨_, v, hrun, hpure⟩ := returns_bind.mp hrest
        obtain ⟨rfl, rfl⟩ := returns_pure.mp hpure
        have hchained : IsChained planner.registry.conversions s.memo g source target :=
          fun path hpath => by
            rw [hnone] at hpath
            cases hpath
        obtain ⟨ht, hmemo⟩ := returns_markAttempted hs hchained hrun
        refine ⟨⟨ht, ?_, fun _ => hmemo⟩, fun _ => ?_⟩
        · rw [hmemo]
          exact hs.settled.converts_self
        · rw [hmemo]
          exact hchained
    · next path hpath =>
        obtain ⟨goesOn, v, hwalk, hend⟩ := returns_bind.mp hrest
        have hhops : ∀ hop ∈ hops path, hop ∈ planner.registry.conversions ∧ hop.1 ≠ hop.2 :=
          fun hop hhop => Conversions.mem_of_mem_hops_path hpath hhop
        have hstep : ∀ hop ∈ hops path, ∀ x c y, ConvertedFrom planner.registry.conversions s
            (IsChained planner.registry.conversions s.memo g source target) x →
            Returns (insertHop planner bounded g hop) x c y →
            ConvertedFrom planner.registry.conversions s
              (IsChained planner.registry.conversions s.memo g source target) y ∧
            (c = true → y.memo.Settled ∧ y.memo.HasConverter g hop) ∧
            ∀ other, x.memo.Settled ∧ x.memo.HasConverter g other →
              y.memo.Settled ∧ y.memo.HasConverter g other := by
          intro hop hhop x c y hx hrun
          obtain ⟨hy, hhas⟩ := returns_insertHop (hhops hop hhop) hx.converting
            (hx.converts.size_eq ▸ hg) hrun
          refine ⟨hx.trans hy fun hchained hsame => ?_, fun hc => ⟨hy.converts.settled, hhas hc⟩,
            fun other hother => ⟨hy.converts.settled, hy.converts.has hother.1 hother.2⟩⟩
          rw [hsame]
          exact hchained path hpath hop hhop
        obtain ⟨hv, hall, -⟩ := returns_allM
          (Q := fun hop u => u.memo.Settled ∧ u.memo.HasConverter g hop) hstep hs.refl hwalk
        cases goesOn with
        | false =>
            obtain ⟨rfl, rfl⟩ := returns_pure.mp hend
            exact ⟨hv, fun hb => absurd hb (by decide)⟩
        | true =>
            obtain ⟨_, w, hrun, hpure⟩ := returns_bind.mp hend
            obtain ⟨rfl, rfl⟩ := returns_pure.mp hpure
            have hchained : IsChained planner.registry.conversions v.memo g source target := by
              intro path' hpath' hop hhop
              obtain rfl := Option.some.inj (hpath.symm.trans hpath')
              exact (hall rfl hop hhop).2
            obtain ⟨ht, hmemo⟩ := returns_markAttempted hv.converting hchained hrun
            refine ⟨⟨ht, ?_, ?_⟩, fun _ => ?_⟩
            · rw [hmemo]
              exact hv.converts
            · rw [hmemo]
              exact hv.idle
            · rw [hmemo]
              exact hchained

/-- The conventions that a group has members in, other than logical ones. -/
theorem mem_presentConventions {memo : Memo ν} {c : Convention} :
    c ∈ presentConventions memo g ↔ ∃ m ∈ (memo.group g).members,
      (memo.member m).convention = c ∧ (memo.member m).isLogical = false := by
  unfold presentConventions membersOf
  rw [List.mem_eraseDups, List.mem_filter, List.map_map, List.mem_map]
  constructor
  · rintro ⟨⟨m, hm, rfl⟩, hphysical⟩
    exact ⟨m, hm, rfl, (Bool.not_eq_true' _).mp hphysical⟩
  · rintro ⟨m, hm, rfl, hphysical⟩
    exact ⟨⟨m, hm, rfl⟩, (Bool.not_eq_true' _).mpr hphysical⟩

/-- The chains of the leader of a group are those of the group, also after the memo grew. -/
theorem isChained_leader_iff {before after : Memo ν} (hgrows : before.GrowsTo after)
    (hled : before.Led) {source target : Convention} :
    IsChained conversions after (before.leader g) source target ↔
      IsChained conversions after g source target := by
  have hsame := hgrows.leader_leader hled g
  constructor
  · intro h path hpath hop hhop
    exact (h path hpath hop hhop).congr hsame
  · intro h path hpath hop hhop
    exact (h path hpath hop hhop).congr hsame.symm

/-- All chains that a group needs are inserted, unless the budget does not allow it. -/
theorem returns_convertGroup (hs : IsConverting planner.registry.conversions s)
    (hg : g < s.memo.groups.size) (h : Returns (convertGroup planner bounded g) s b t) :
    ConvertedFrom planner.registry.conversions s
        (IsConnected planner.registry.conversions s.memo g) t ∧
      (b = true → Connected planner.registry.conversions s.memo t.memo g) := by
  have hled := hs.settled.led
  have hself := hled.leader_leader g
  unfold convertGroup at h
  obtain ⟨memo, _, hmemo, hrest⟩ := returns_bind.mp h
  obtain ⟨hread, hstate⟩ := returns_memoNow.mp hmemo
  rw [hread, hstate] at hrest
  dsimp only at hrest
  rw [required_congr hself] at hrest
  -- one step is for one convention that is needed and one that is present
  have hstep : ∀ target ∈ (s.memo.group g).required.filter (fun c => !c.isLogical),
      ∀ source ∈ presentConventions s.memo (s.memo.leader g), ∀ x c y,
      ConvertedFrom planner.registry.conversions s
        (IsConnected planner.registry.conversions s.memo g) x →
      Returns (convert planner bounded (s.memo.leader g) source target) x c y →
      ConvertedFrom planner.registry.conversions s
        (IsConnected planner.registry.conversions s.memo g) y ∧
      (c = true → IsChained planner.registry.conversions y.memo g source target) ∧
      x.memo.GrowsTo y.memo := by
    intro target htarget source hsource x c y hx hrun
    obtain ⟨hy, hhas⟩ := returns_convert hx.converting (hx.converts.size_eq ▸ hled.leader_lt hg) hrun
    have hafter := hx.converts.toGrowsTo.trans hy.converts.toGrowsTo
    refine ⟨hx.trans hy fun hconnected hsame => ?_, fun hc => ?_, hy.converts.toGrowsTo⟩
    · obtain ⟨htarget, hphysical⟩ := List.mem_filter.mp htarget
      obtain ⟨m, hm, rfl, hlogical⟩ := mem_presentConventions.mp hsource
      rw [isChained_leader_iff hx.converts.toGrowsTo hled, hsame]
      rw [members_congr hself] at hm
      exact hconnected target htarget ((Bool.not_eq_true' _).mp hphysical) m hm hlogical
    · exact (isChained_leader_iff hafter hled).mp (hhas hc)
  have hwalk : ∀ target ∈ (s.memo.group g).required.filter (fun c => !c.isLogical), ∀ x c y,
      ConvertedFrom planner.registry.conversions s
        (IsConnected planner.registry.conversions s.memo g) x →
      Returns ((presentConventions s.memo (s.memo.leader g)).allM fun source =>
        convert planner bounded (s.memo.leader g) source target) x c y →
      ConvertedFrom planner.registry.conversions s
        (IsConnected planner.registry.conversions s.memo g) y ∧
      (c = true → ∀ source ∈ presentConventions s.memo (s.memo.leader g),
        IsChained planner.registry.conversions y.memo g source target) ∧
      x.memo.GrowsTo y.memo := by
    intro target htarget x c y hx hrun
    obtain ⟨⟨hy, hgrows⟩, hall, -⟩ := returns_allM
      (I := fun u => ConvertedFrom planner.registry.conversions s
        (IsConnected planner.registry.conversions s.memo g) u ∧ x.memo.GrowsTo u.memo)
      (Q := fun source u => u.memo.Settled ∧
        IsChained planner.registry.conversions u.memo g source target)
      (fun source hsource u c v hu hrun => by
        obtain ⟨hv, hhas, hgrows⟩ := hstep target htarget source hsource u c v hu.1 hrun
        exact ⟨⟨hv, hu.2.trans hgrows⟩, fun hc => ⟨hgrows.settled, hhas hc⟩,
          fun other hother => ⟨hgrows.settled, hother.2.of_growsTo hother.1 hgrows⟩⟩)
      ⟨hx, hx.converting.settled.growsTo_self⟩ hrun
    exact ⟨hy, fun hc source hsource => (hall hc source hsource).2, hgrows⟩
  obtain ⟨ht, hall, -⟩ := returns_allM
    (Q := fun target u => u.memo.Settled ∧
      ∀ source ∈ presentConventions s.memo (s.memo.leader g),
        IsChained planner.registry.conversions u.memo g source target)
    (fun target htarget x c y hx hrun => by
      obtain ⟨hy, hhas, hgrows⟩ := hwalk target htarget x c y hx hrun
      exact ⟨hy, fun hc => ⟨hgrows.settled, hhas hc⟩, fun other hother => ⟨hgrows.settled,
        fun source hsource => (hother.2 source hsource).of_growsTo hother.1 hgrows⟩⟩)
    hs.refl hrest
  refine ⟨ht, fun hb target htarget hphysical m hm hlogical => ?_⟩
  refine (hall hb target (List.mem_filter.mpr ⟨htarget, (Bool.not_eq_true' _).mpr hphysical⟩)).2 _
    (mem_presentConventions.mpr ⟨m, ?_, rfl, hlogical⟩)
  rw [members_congr hself]
  exact hm

/-! ## Passes without a bound -/

/-- Without a bound, no converter is left out. -/
theorem insertHop_unbounded {hop : Convention × Convention}
    (h : Returns (insertHop planner false g hop) s b t) : b = true := by
  obtain ⟨_, _, -, hpure⟩ := returns_bind.mp h
  exact (returns_pure.mp hpure).1

theorem convert_unbounded {source target : Convention}
    (h : Returns (convert planner false g source target) s b t) : b = true := by
  unfold convert at h
  obtain ⟨_, _, -, hrest⟩ := returns_bind.mp h
  split at hrest
  · exact (returns_pure.mp hrest).1
  · split at hrest
    · obtain ⟨_, _, -, hpure⟩ := returns_bind.mp hrest
      exact (returns_pure.mp hpure).1
    · obtain ⟨goesOn, _, hwalk, hend⟩ := returns_bind.mp hrest
      obtain rfl := returns_allM_eq_true (fun _ _ _ _ _ hrun => insertHop_unbounded hrun) hwalk
      obtain ⟨_, _, -, hpure⟩ := returns_bind.mp hend
      exact (returns_pure.mp hpure).1

theorem convertGroup_unbounded (h : Returns (convertGroup planner false g) s b t) : b = true := by
  obtain ⟨_, _, -, hwalk⟩ := returns_bind.mp h
  exact returns_allM_eq_true (fun _ _ _ _ _ hinner =>
    returns_allM_eq_true (fun _ _ _ _ _ hrun => convert_unbounded hrun) hinner) hwalk

/-! ## Conversion passes -/

/-- A conversion pass inserts all chains that were needed before it, unless the budget does not
allow it. If it reports nothing new, then the memo is as it was, and no chain is missing. -/
theorem returns_convertAll (hs : IsConverting planner.registry.conversions s)
    (h : Returns (convertAll planner bounded) s b t) :
    ConvertedFrom planner.registry.conversions s
        (∀ g ∈ s.memo.liveGroups, IsConnected planner.registry.conversions s.memo g) t ∧
      (b = false → t.memo = s.memo ∧
        ∀ g ∈ s.memo.liveGroups, IsConnected planner.registry.conversions s.memo g) ∧
      (bounded = false →
        ∀ g ∈ s.memo.liveGroups, Connected planner.registry.conversions s.memo t.memo g) := by
  unfold convertAll at h
  obtain ⟨memo, _, hmemo, hrest⟩ := returns_bind.mp h
  obtain ⟨hread, hstate⟩ := returns_memoNow.mp hmemo
  rw [hread, hstate] at hrest
  obtain ⟨finished, u, hwalk, hend⟩ := returns_bind.mp hrest
  obtain ⟨after, v, hafter, hpure⟩ := returns_bind.mp hend
  obtain ⟨rfl, rfl⟩ := returns_memoNow.mp hafter
  obtain ⟨rfl, rfl⟩ := returns_pure.mp hpure
  have hlt : ∀ g ∈ s.memo.liveGroups, g < s.memo.groups.size := fun g hg =>
    List.mem_range.mp (List.mem_filter.mp hg).1
  obtain ⟨ht, hall, -⟩ := returns_allM
    (Q := fun g u => u.memo.Settled ∧ Connected planner.registry.conversions s.memo u.memo g)
    (fun g hg x c y (hx : ConvertedFrom planner.registry.conversions s
        (∀ g ∈ s.memo.liveGroups, IsConnected planner.registry.conversions s.memo g) x) hrun => by
      obtain ⟨hy, hconnected⟩ := returns_convertGroup hx.converting (hx.converts.size_eq ▸ hlt g hg) hrun
      have hmore := hy.converts.toGrowsTo
      refine ⟨hx.trans hy fun hall hsame => ?_, fun hc => ⟨hmore.settled, ?_⟩,
        fun other hother => ⟨hmore.settled, ?_⟩⟩
      · rw [hsame]
        exact hall g hg
      · exact (hconnected hc).mono hs.settled hx.converts.toGrowsTo hmore.settled
          hmore.settled.growsTo_self
      · exact hother.2.mono hs.settled hs.settled.growsTo_self hother.1 hmore)
    hs.refl hwalk
  refine ⟨ht, fun hb => ?_, fun hbounded g hg => ?_⟩
  · rw [Bool.or_eq_false_iff, Bool.not_eq_false', decide_eq_false_iff_not] at hb
    obtain ⟨hfinished, hcount⟩ := hb
    have hsame := ht.converts.idle (Nat.le_antisymm (Nat.le_of_not_lt hcount) ht.converts.members)
    refine ⟨hsame, fun g hg => ?_⟩
    have hconnected := (hall hfinished g hg).2
    rwa [hsame] at hconnected
  · subst hbounded
    have hfinished := returns_allM_eq_true (fun _ _ _ _ _ hrun => convertGroup_unbounded hrun) hwalk
    exact (hall hfinished g hg).2

end Search

end QueryPlanner
