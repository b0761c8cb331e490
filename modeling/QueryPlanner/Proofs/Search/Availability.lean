/-
# No plan is hidden by a budget

A budget can end the loop of a search anywhere, also within a chain of converters. If the goal can
be derived nevertheless, by physical members and registered conversions, then it has a winner after
the last conversion pass: what a physical member needs of its inputs is required of them, so that
the pass inserts the chains that the derivation takes.

* `Derivable` : what members and registered conversions give;
* `isSome_winner_of_derivation` : what can be derived from members has a winner;
* `nonempty_derivation_of_derivable` : after a conversion pass, members give it;
* `isInternal_of_optimize` : what a search may say where the goal has a winner;
* `not_isUnavailable_of_derivable` : a search does not say that there is no plan.
-/
import QueryPlanner.Proofs.Conversions
import QueryPlanner.Proofs.Search.Cycles
import QueryPlanner.Proofs.Search.Failures
import QueryPlanner.Proofs.Search.Rounds

namespace QueryPlanner

open Memo

namespace Search

variable {ν : Type}

/-! ## Derivations -/

/-- A group can be derived in a convention: by a physical member that is no converter, over inputs
that can be derived, or by a registered conversion. -/
inductive Derivable (conversions : Conversions) (memo : Memo ν) : GroupId → Convention → Prop
  | member {g : GroupId} {c : Convention} (m : MemberId) (hm : m ∈ (memo.group g).members)
      (physical : (memo.member m).isLogical = false)
      (noConverter : ∀ source, (memo.member m).op ≠ .converter source)
      (convention : (memo.member m).convention = c)
      (inputs : ∀ slot ∈ (memo.member m).slots, Derivable conversions memo slot.1 slot.2) :
      Derivable conversions memo g c
  | convert {g : GroupId} {source c : Convention} (h : Derivable conversions memo g source)
      (hop : (source, c) ∈ conversions) : Derivable conversions memo g c

section Winners

variable {planner : Planner ν} {memo : Memo ν} {g other : GroupId} {c : Convention}

/-- A member makes a derivation over derivations of its inputs. -/
theorem Offers.nonempty_derivation {m : MemberId} (h : Offers planner memo m g c)
    (hinputs : ∀ slot ∈ (memo.member m).slots, Nonempty (Derivation planner memo slot.1 slot.2)) :
    Nonempty (Derivation planner memo g c) := by
  have htrees : ∀ i : Fin (memo.member m).slots.length, Nonempty (Derivation planner memo
      (memo.member m).slots[i].1 (memo.member m).slots[i].2) := fun i =>
    hinputs _ (List.getElem_mem i.isLt)
  exact ⟨.node m h fun i => Classical.choice (htrees i)⟩

/-- Groups of the same leader have the same derivations. -/
theorem nonempty_derivation_congr (h : Nonempty (Derivation planner memo g c))
    (hl : memo.leader g = memo.leader other) : Nonempty (Derivation planner memo other c) := by
  obtain ⟨m, hoffer, inputs⟩ := h
  refine ⟨.node m ⟨?_, hoffer.physical, hoffer.convention, hoffer.convertible⟩ inputs⟩
  rw [← members_congr hl]
  exact hoffer.listed

/-- Where all members are steady, whatever can be derived has a winner. -/
theorem isSome_winner_of_derivation [Quantity ν] (hled : memo.Led)
    (hsteady : AreSteady planner memo memo.liveGroups) (t : Derivation planner memo g c) :
    (memo.winner g c).isSome := by
  induction t with
  | @node g c m offered inputs ih =>
      have hwinners := fun i => Option.isSome_iff_exists.mp (ih i)
      choose winners hwinners using hwinners
      have hcosts : inputCosts memo (memo.member m) =
          some (List.ofFn fun i => (winners i).cost) := by
        rw [inputCosts_eq_some_iff, List.forall₂_iff_get]
        refine ⟨(List.length_ofFn).symm, fun i hi _ => ⟨winners ⟨i, hi⟩, hwinners ⟨i, hi⟩, ?_⟩⟩
        rw [List.get_ofFn]
        rfl
      have hcost := costOf_eq_some_iff.mpr ⟨offered.convertible, hcosts, rfl⟩
      have hself := hled.leader_leader g
      have hg : g < memo.groups.size := by
        by_contra hge
        have hm := offered.listed
        rw [members_group_of_le (hled.le_leader (Nat.le_of_not_lt hge))] at hm
        exact List.not_mem_nil hm
      have hm : m ∈ (memo.group (memo.leader g)).members := by
        rw [members_congr hself]
        exact offered.listed
      obtain ⟨himproves, -⟩ :=
        hsteady _ (hled.leader_mem_liveGroups hg) m hm offered.physical _ _ hcost
      rw [offered.convention, winner_congr hself] at himproves
      -- without a winner, the member would improve on it
      rcases hw : memo.winner g c with _ | w
      · rw [hw] at himproves
        cases himproves
      · rfl

/-- When winners were found, whatever can be derived has one. -/
theorem isSome_winner_of_findWinners [Quantity ν] {s t : Search ν} (hs : s.memo.Settled)
    (h : Returns (findWinners planner) s () t)
    (hderivation : Nonempty (Derivation planner t.memo g c)) : (t.memo.winner g c).isSome := by
  obtain ⟨-, hsame, -⟩ := passes_findWinners h
  obtain ⟨-, hsteady⟩ := returns_findWinners (I := fun _ => True) hs.led h
    (fun _ _ _ _ _ _ _ _ _ _ _ _ => trivial) fun _ _ _ => trivial
  obtain ⟨d⟩ := hderivation
  exact isSome_winner_of_derivation (hsame.symm.led hs.led) hsteady d

/-- An offer stays one when the memo grows. -/
theorem Offers.of_growsTo {before after : Memo ν} (hbefore : before.Settled)
    (h : before.GrowsTo after) {m : MemberId} (hoffer : Offers planner before m g c) :
    Offers planner after m g c := by
  have hm := hbefore.lt_of_mem_group hoffer.listed
  constructor
  · exact h.mem_group hbefore hoffer.listed
  · rw [h.isLogical_eq hm]
    exact hoffer.physical
  · rw [h.convention_eq hm]
    exact hoffer.convention
  · intro source hop
    rw [h.op_eq hm] at hop
    rw [h.convention_eq hm]
    exact hoffer.convertible source hop

/-- What is offered over inputs that were derived before is derived. -/
theorem Offers.nonempty_derivation_of_growsTo {before after : Memo ν} (hbefore : before.Settled)
    (h : before.GrowsTo after) {m : MemberId} (hoffer : Offers planner before m g c)
    (hinputs : ∀ slot ∈ (before.member m).slots,
      Nonempty (Derivation planner after slot.1 slot.2)) :
    Nonempty (Derivation planner after g c) := by
  have hm := hbefore.lt_of_mem_group hoffer.listed
  refine (hoffer.of_growsTo hbefore h).nonempty_derivation fun slot hslot => ?_
  unfold Member.slots at hslot
  rw [h.children_eq hm, h.inputs_eq hm, List.zip_map_left] at hslot
  obtain ⟨old, hold, rfl⟩ := List.mem_map.mp hslot
  exact nonempty_derivation_congr (hinputs old hold) (h.settled.led.leader_leader _).symm

/-- A derivation stays one when the memo grows. -/
theorem nonempty_derivation_of_growsTo {before after : Memo ν} (hbefore : before.Settled)
    (h : before.GrowsTo after) (d : Derivation planner before g c) :
    Nonempty (Derivation planner after g c) := by
  induction d with
  | @node g c m offered inputs ih =>
      refine offered.nonempty_derivation_of_growsTo hbefore h fun slot hslot => ?_
      obtain ⟨i, hi, rfl⟩ := List.getElem_of_mem hslot
      exact ih ⟨i, hi⟩

end Winners

/-! ## Conversion passes -/

section Conversions

variable {planner : Planner ν} {before after : Memo ν} {g : GroupId} {source c : Convention}

/-- A group that has the converter of a hop is derived at the end of the hop if it is at its
start. -/
theorem nonempty_derivation_of_hasConverter (hafter : after.Settled) (hg : g < after.groups.size)
    {hop : Convention × Convention} (hhop : hop ∈ planner.registry.conversions)
    (hend : hop.2 ≠ .logical) (hhas : after.HasConverter g hop)
    (h : Nonempty (Derivation planner after g hop.1)) :
    Nonempty (Derivation planner after g hop.2) := by
  obtain ⟨m, hm, hop', hconvention, hinputs, hchildren⟩ := (hafter.hasConverter_iff hg).mp hhas
  refine Offers.nonempty_derivation (m := m) ⟨hm, ?_, hconvention, ?_⟩ ?_
  · unfold Member.isLogical
    rw [hconvention]
    exact decide_eq_false hend
  · intro source hsource
    rw [hop'] at hsource
    cases hsource
    rw [hconvention]
    exact Option.isSome_iff_exists.mp (Registry.isSome_convertlet? hhop)
  · intro slot hslot
    unfold Member.slots at hslot
    rw [hchildren, hinputs] at hslot
    obtain rfl := List.mem_singleton.mp hslot
    exact nonempty_derivation_congr h (hafter.led.leader_leader g).symm

/-- Along a chain of converters a group is derived at its end if it is at its start. -/
theorem nonempty_derivation_of_isChained (hafter : after.Settled) (hg : g < after.groups.size)
    (hends : ∀ hop ∈ planner.registry.conversions, hop.2 ≠ .logical)
    (hchained : IsChained planner.registry.conversions after g source c)
    (hleads : Conversions.Leads planner.registry.conversions source c)
    (h : Nonempty (Derivation planner after g source)) :
    Nonempty (Derivation planner after g c) := by
  by_cases hsame : source = c
  · exact hsame ▸ h
  · obtain ⟨path, hpath⟩ := Option.isSome_iff_exists.mp (Conversions.isSome_path hsame hleads)
    refine Conversions.carries_path (P := fun c => Nonempty (Derivation planner after g c)) hpath h
      fun hop hhop => ?_
    obtain ⟨hconversion, -⟩ := Conversions.mem_of_mem_hops_path hpath hhop
    exact nonempty_derivation_of_hasConverter hafter hg hconversion (hends hop hconversion)
      (hchained path hpath hop hhop)

/-- A member that is no converter, and conversions that follow it; something is known of its
inputs. -/
structure Base (conversions : Conversions) (memo : Memo ν) (P : GroupId → Convention → Prop)
    (g : GroupId) (c : Convention) (m : MemberId) : Prop where
  listed : m ∈ (memo.group g).members
  physical : (memo.member m).isLogical = false
  noConverter : ∀ source, (memo.member m).op ≠ .converter source
  leads : Conversions.Leads conversions (memo.member m).convention c
  inputs : ∀ slot ∈ (memo.member m).slots, P slot.1 slot.2

section Required

variable (hends : ∀ hop ∈ planner.registry.conversions, hop.2 ≠ .logical) (hbefore : before.Settled)
  (hproper : before.Every (IsProper planner.registry)) (hgrows : before.GrowsTo after)
  (hconnected : ∀ g ∈ before.liveGroups, Connected planner.registry.conversions before after g)

include hends hbefore hproper hgrows hconnected

/-- A convention that is required, and that conversions lead to from a member, is derived if the
inputs of the member are, which are required as well. -/
theorem Base.nonempty_derivation {m : MemberId}
    (h : Base planner.registry.conversions before (fun g c => c ∈ (before.group g).required →
      Nonempty (Derivation planner after g c)) g c m)
    (hc : c ≠ .logical) (hrequired : c ∈ (before.group g).required) :
    Nonempty (Derivation planner after g c) := by
  obtain ⟨hg, hm, -⟩ := hbefore.mem_group_iff.mp h.listed
  have hself := hbefore.led.leader_leader g
  have hoffer : Offers planner before m g (before.member m).convention :=
    ⟨h.listed, h.physical, rfl, fun source hop => absurd hop (h.noConverter source)⟩
  have hstart := hoffer.nonempty_derivation_of_growsTo hbefore hgrows fun slot hslot =>
    h.inputs slot hslot ((hproper m hm).asks h.physical h.noConverter slot hslot)
  have hchained : IsChained planner.registry.conversions after (before.leader g)
      (before.member m).convention c := by
    refine hconnected _ (hbefore.led.leader_mem_liveGroups hg) c ?_ (decide_eq_false hc) m ?_
      h.physical
    · rw [required_congr hself]
      exact hrequired
    · rw [members_congr hself]
      exact h.listed
  exact nonempty_derivation_of_isChained hgrows.settled (Nat.lt_of_lt_of_le hg hgrows.groups) hends
    ((isChained_leader_iff hgrows hbefore.led).mp hchained) h.leads hstart

/-- Whatever can be derived rests on a member. -/
theorem exists_base (h : Derivable planner.registry.conversions before g c) :
    c ≠ .logical ∧ ∃ m, Base planner.registry.conversions before
      (fun g c => c ∈ (before.group g).required → Nonempty (Derivation planner after g c)) g c m := by
  induction h with
  | @member g c m hm physical noConverter convention inputs ih =>
      subst convention
      refine ⟨of_decide_eq_false physical, m, hm, physical, noConverter, .refl, fun slot hslot => ?_⟩
      obtain ⟨hphysical, _, hbase⟩ := ih slot hslot
      exact hbase.nonempty_derivation hends hbefore hproper hgrows hconnected hphysical
  | convert _ hop ih =>
      obtain ⟨-, m, hbase⟩ := ih
      exact ⟨hends _ hop, m, hbase.listed, hbase.physical, hbase.noConverter,
        hbase.leads.tail hop, hbase.inputs⟩

/-- After the chains were inserted that a memo needs, members give whatever could be derived in a
convention that is required. -/
theorem nonempty_derivation_of_derivable (h : Derivable planner.registry.conversions before g c)
    (hrequired : c ∈ (before.group g).required) : Nonempty (Derivation planner after g c) := by
  obtain ⟨hc, _, hbase⟩ := exists_base hends hbefore hproper hgrows hconnected h
  exact hbase.nonempty_derivation hends hbefore hproper hgrows hconnected hc hrequired

end Required

end Conversions

/-! ## Searches -/

section Searches

variable [Quantity ν] {planner : Planner ν}

omit [Quantity ν] in
/-- What can be derived does not depend on notes. -/
theorem Derivable.of_note {conversions : Conversions} {memo memo' : Memo ν} {g : GroupId}
    {c : Convention} (h : Derivable conversions memo g c) (hsame : SameUpTo Group.bare memo' memo) :
    Derivable conversions memo' g c := by
  induction h with
  | @member g c m hm physical noConverter convention inputs ih =>
      have hmembers : (memo'.group g).bare.members = (memo.group g).bare.members := by
        rw [hsame.group]
      have hread := hsame.member m
      refine .member m ?_ (by rwa [hread]) (by rwa [hread]) (by rwa [hread]) ?_
      · change m ∈ (memo'.group g).bare.members
        rw [hmembers]
        exact hm
      · rw [hread]
        exact ih
  | convert _ hop ih => exact ih.convert hop

/-- When the goal can be derived where the loop ends, it has a winner in the end. -/
theorem isSome_of_returns_settleGoal
    (hrules : ∀ rule ∈ planner.registry.rules, rule.IsRegular planner.catalog)
    (hends : ∀ hop ∈ planner.registry.conversions, hop.2 ≠ .logical) {s t : Search ν}
    (hs : IsRunning planner s) {root : GroupId} {goal : Goal ν}
    (hrequired : goal.convention ∈ (s.memo.group root).required)
    (hderivable : Derivable planner.registry.conversions s.memo root goal.convention)
    {r : Option (Winner ν)} (h : Returns (settleGoal planner root goal) s r t) : r.isSome := by
  obtain ⟨hr, ⟨-, hsome⟩ | ⟨u, b, v, hfind, hconvert, hagain⟩⟩ := settleGoal_cases h
  · exact hsome
  · obtain ⟨hfound, hsame, -⟩ := passes_findWinners hfind
    obtain ⟨hu, hgrows⟩ := hs.passes hrules hfound
    obtain ⟨hv, -, hconnected⟩ := returns_convertAll hu.converting hconvert
    obtain ⟨d⟩ := nonempty_derivation_of_derivable hends hu.settled hu.proper
      hv.converts.toGrowsTo (hconnected rfl) (hderivable.of_note hsame)
      (hgrows.required root _ hrequired)
    obtain ⟨-, hsame', -⟩ := passes_findWinners hagain
    have hsettled := hv.converting.settled
    rw [← hr]
    exact isSome_winner_of_findWinners hsettled hagain
      (nonempty_derivation_of_growsTo hsettled (growsTo_of_note hsettled hsame') d)

omit [Quantity ν] in
/-- A search may start its loop from a memo of logical members. -/
theorem LogicallyBuilt.isRunning_require {memo : Memo ν}
    (hrules : ∀ rule ∈ planner.registry.rules, rule.IsRegular planner.catalog)
    (hmemo : LogicallyBuilt memo) (root : GroupId) (c : Convention) :
    IsRunning planner { memo := memo.require root c } :=
  ((hmemo.isRunning planner).move hrules (.require root c)).1

/-- When the goal was settled by a winner, extracting the plan can only fail at a cycle, as winners
read winners. -/
theorem exists_cycle_of_settleGoal {u v : Search ν}
    (hrules : ∀ rule ∈ planner.registry.rules, rule.IsRegular planner.catalog) {root : GroupId}
    {goal : Goal ν} (hu : IsRunning planner u) {w : Winner ν}
    (hsettle : Returns (settleGoal planner root goal) u (some w) v) {e : OptimizationError ν}
    (hfails : v.memo.extract root goal.convention = .error e) :
    ∃ q : GroupId × Convention, e = .cyclicPlan q.1 q.2 := by
  obtain ⟨x, hx, hfind⟩ := exists_findWinners_of_settleGoal hrules hu hsettle
  have hclosed := isClosed_findWinners hx.settled.led hfind
  have hled := (passes_findWinners hfind).2.1.symm.led hx.settled.led
  have hwinner : (v.memo.winner root goal.convention).isSome := by
    rw [(settleGoal_cases hsettle).1]
    rfl
  rcases extract_cases hled hclosed hwinner with ⟨-, node, hnode⟩ | ⟨q, hcycle, -⟩
  · rw [hnode] at hfails
    cases hfails
  · rw [hcycle] at hfails
    exact ⟨q, (Except.error.inj hfails).symm⟩

/-- When the goal has a winner wherever it is settled, the search does not say that there is no plan,
nor that it ran out of its budget. -/
theorem isInternal_of_optimize {s u : Search ν}
    (hrules : ∀ rule ∈ planner.registry.rules, rule.IsRegular planner.catalog) {root : GroupId}
    {goal : Goal ν} (hstart : IsRunning planner { s with memo := s.memo.require root goal.convention })
    {ended : Except (OptimizationError ν) Bool}
    (hexpand : (expand planner root goal (planner.budget.iterations - s.iterations + 1)).run.run
      { s with memo := s.memo.require root goal.convention } = (ended, u))
    (hsome : ∀ exhausted, ended = .ok exhausted →
      ∀ r t, Returns (settleGoal planner root goal) u r t → r.isSome)
    {e : OptimizationError ν} (hfails : ((optimize planner root goal).run.run s).1 = .error e) :
    e.IsInternal := by
  obtain ⟨t, h⟩ : ∃ t, (optimize planner root goal).run.run s = (.error e, t) :=
    ⟨_, Prod.ext hfails rfl⟩
  cases ended with
  | error e' =>
      unfold optimize at h
      rw [run_bind_of_ok (show (modifyMemo fun memo => memo.require root goal.convention :
        Step ν Unit).run.run s = (.ok (), _) from rfl)] at h
      rw [run_bind_of_ok (show (get : Step ν (Search ν)).run.run _ = (.ok _, _) from rfl)] at h
      rw [run_bind_of_error hexpand] at h
      cases h
      exact raises_expand planner root goal _ _ _ _ hexpand
  | ok exhausted =>
      obtain ⟨hpasses, -⟩ := returns_expand hrules hstart hexpand
      obtain ⟨hu, -⟩ := hstart.passes hrules hpasses
      rcases hsettle : (settleGoal planner root goal).run.run u with ⟨e' | r, v⟩
      · unfold optimize at h
        rw [run_bind_of_ok (show (modifyMemo fun memo => memo.require root goal.convention :
          Step ν Unit).run.run s = (.ok (), _) from rfl)] at h
        rw [run_bind_of_ok (show (get : Step ν (Search ν)).run.run _ = (.ok _, _) from rfl)] at h
        rw [run_bind_of_ok hexpand, run_bind_of_error hsettle] at h
        cases h
        exact raises_settleGoal planner root goal _ _ _ hsettle
      · obtain ⟨w, rfl⟩ := Option.isSome_iff_exists.mp (hsome exhausted rfl r v hsettle)
        obtain ⟨truncated, hextract⟩ := run_optimize (s := s) hexpand hsettle
        rw [h] at hextract
        rcases hnode : v.memo.extract root goal.convention with e' | node
        · obtain ⟨q, rfl⟩ := exists_cycle_of_settleGoal hrules hu hsettle hnode
          rw [hnode] at hextract
          cases hextract
          exact id
        · rw [hnode] at hextract
          cases hextract

/-- A budget never hides a plan. For a memo of logical members, any rules that name groups which
exist and propose no converters, any convertlets between physical conventions, any costs, budget
and ceiling: if the goal can be derived from the memo when the loop has ended, then the search
says neither that there is no plan nor that it ran out of its budget. -/
theorem not_isUnavailable_of_derivable {memo : Memo ν}
    (hrules : ∀ rule ∈ planner.registry.rules, rule.IsRegular planner.catalog)
    (hends : ∀ convertlet ∈ planner.registry.convertlets.entries,
      convertlet.source ≠ .logical ∧ convertlet.target ≠ .logical)
    (hmemo : LogicallyBuilt memo) {root : GroupId} (hroot : root < memo.groups.size)
    (goal : Goal ν) {ended : Except (OptimizationError ν) Bool} {u : Search ν}
    (hexpand : (expand planner root goal (planner.budget.iterations + 1)).run.run
      { memo := memo.require root goal.convention } = (ended, u))
    (hderivable : Derivable planner.registry.conversions u.memo root goal.convention) :
    (∀ iterations c, ((optimize planner root goal).run.run { memo := memo }).1 ≠
      .error (.budgetExceeded iterations c)) ∧
    ∀ kind c, ((optimize planner root goal).run.run { memo := memo }).1 ≠
      .error (.unsatisfiable kind c) := by
  have hstart := hmemo.isRunning_require hrules root goal.convention
  have hends' : ∀ hop ∈ planner.registry.conversions, hop.2 ≠ .logical := by
    intro hop hhop
    obtain ⟨convertlet, hconvertlet, rfl⟩ :=
      List.mem_map.mp ((planner.registry.bridged hop).mp hhop)
    exact (hends convertlet hconvertlet).2
  have hsome : ∀ exhausted, ended = .ok exhausted →
      ∀ r t, Returns (settleGoal planner root goal) u r t → r.isSome := by
    rintro exhausted rfl r t hsettle
    obtain ⟨hpasses, -⟩ := returns_expand hrules hstart hexpand
    obtain ⟨hu, hgrows⟩ := hstart.passes hrules hpasses
    refine isSome_of_returns_settleGoal hrules hends' hu ?_ hderivable hsettle
    exact hgrows.required root _
      ((mem_required_require hmemo.entries.1.led hroot).mpr (Or.inr ⟨rfl, rfl⟩))
  have hinternal : ∀ e, ((optimize planner root goal).run.run { memo := memo }).1 = .error e →
      e.IsInternal := fun e hfails =>
    isInternal_of_optimize (s := { memo := memo }) hrules hstart hexpand hsome hfails
  constructor
  · intro iterations c h
    exact hinternal _ h trivial
  · intro kind c h
    exact hinternal _ h trivial

/-- The standard planner, with so few iterations that it stops within a chain of converters. -/
def hurriedPlanner : Planner Float :=
  { standardPlanner with budget := { iterations := 7 } }

/-- The end of its loop for generated code in the example of a foreign table. -/
def hurriedOnes : Except (OptimizationError Float) Bool × Search Float :=
  (expand hurriedPlanner 1 ⟨.compiled, none⟩ 8).run.run { memo := foreignOnes.require 1 .compiled }

/-- There the goal can be derived: the filter for generated code reads the table, which is fetched
and then converted twice, although the second of these converters is missing. -/
theorem derivable_hurriedOnes :
    Derivable hurriedPlanner.registry.conversions hurriedOnes.2.memo 1 .compiled := by
  have hmember : ∀ {g : GroupId} {c : Convention} (m : MemberId),
      m ∈ (hurriedOnes.2.memo.group g).members →
      (hurriedOnes.2.memo.member m).isLogical = false →
      (hurriedOnes.2.memo.member m).op.kind ≠ .converter →
      (hurriedOnes.2.memo.member m).convention = c →
      (∀ slot ∈ (hurriedOnes.2.memo.member m).slots,
        Derivable hurriedPlanner.registry.conversions hurriedOnes.2.memo slot.1 slot.2) →
      Derivable hurriedPlanner.registry.conversions hurriedOnes.2.memo g c := by
    intro g c m hm physical hkind convention inputs
    refine .member m hm physical (fun source hop => hkind ?_) convention inputs
    rw [hop]
    rfl
  have hslots : (hurriedOnes.2.memo.member 2).slots = [] ∧
      (hurriedOnes.2.memo.member 4).slots = [(0, .compiled)] := by
    decide +kernel
  have hfetched : Derivable hurriedPlanner.registry.conversions hurriedOnes.2.memo 0 .federated := by
    refine hmember 2 (by decide +kernel) (by decide +kernel) (by decide +kernel) (by decide +kernel) ?_
    rw [hslots.1]
    exact nofun
  have hconverted : Derivable hurriedPlanner.registry.conversions hurriedOnes.2.memo 0 .compiled :=
    (hfetched.convert (c := .iterator) (by decide)).convert (by decide)
  refine hmember 4 (by decide +kernel) (by decide +kernel) (by decide +kernel) (by decide +kernel) ?_
  rw [hslots.2]
  intro slot hslot
  rw [List.mem_singleton.mp hslot]
  exact hconverted

/-- In the example of a foreign table the budget ends the loop there, and a plan is found. -/
theorem not_isUnavailable_of_derivable_foreignOnes :
    hurriedOnes.1.toOption = some true ∧
    (∀ iterations c, ((optimize hurriedPlanner 1 ⟨.compiled, none⟩).run.run
      { memo := foreignOnes }).1 ≠ .error (.budgetExceeded iterations c)) ∧
    ∀ kind c, ((optimize hurriedPlanner 1 ⟨.compiled, none⟩).run.run
      { memo := foreignOnes }).1 ≠ .error (.unsatisfiable kind c) := by
  have hexpand : (expand hurriedPlanner 1 ⟨.compiled, none⟩ (hurriedPlanner.budget.iterations + 1)
      ).run.run { memo := foreignOnes.require 1 .compiled } = (hurriedOnes.1, hurriedOnes.2) :=
    Prod.eta hurriedOnes |>.symm
  refine ⟨by decide +kernel, ?_⟩
  exact not_isUnavailable_of_derivable (fun rule hrule => Rule.isRegular_of_mem_standard hrule)
    Convertlet.ne_logical_of_mem_builtin logicallyBuilt_foreignOnes (by decide +kernel) _ hexpand
    derivable_hurriedOnes

end Searches

end Search

end QueryPlanner
