/-
# Costs add up

Without rounding, the built-in costs never get a plan wrong: statistics are estimated from non-negative
ones, no work is negative, and so each member costs at least what its inputs cost together. The check for
nodes that come out cheaper than one of their inputs never finds one.

* `Derives.noted` : what holds of all estimates goes on to hold when statistics are derived;
* `IsCosted` : a planner that has the built-in costs and no negative statistics of tables;
* `Attained.noted` : all that such a search notes on groups is non-negative;
* `total_le_of_costOf` : a member costs no less than its inputs do together;
* `not_isNonMonotonic_of_fails_optimize` : so that no search complains of it.
-/
import QueryPlanner.Proofs.Estimates
import QueryPlanner.Proofs.Memo.Cycles
import QueryPlanner.Proofs.Memo.Notes
import QueryPlanner.Proofs.Search.Attained
import QueryPlanner.Proofs.Search.Failures
import QueryPlanner.Proofs.Search.Statistics

namespace QueryPlanner

open Memo Quantity

namespace Search

/-! ## What is noted -/

section Notes

variable {ν : Type} [Quantity ν] {catalog : Catalog ν} {S : Statistics ν → Prop} {W : ν → Prop}
  {memo after : Memo ν} {g : GroupId}

omit [Quantity ν] in
theorem noted_setStatistics (h : memo.Noted S W) (g : GroupId) {x : Statistics ν} (hx : S x) :
    (setStatistics memo g x).Noted S W := by
  refine h.modifyGroup g fun group hgroup => ⟨fun y hy => ?_, hgroup.winners⟩
  cases hy
  exact hx

omit [Quantity ν] in
theorem noted_crown (h : memo.Noted S W) (g : GroupId) (c : Convention) {w : Winner ν} (hw : W w.cost) :
    (crown memo g c w).Noted S W :=
  h.modifyGroup g fun _ hgroup => ⟨hgroup.statistics,
    Dictionary.forall_mem_insert (P := fun w : Winner ν => W w.cost) hgroup.winners hw⟩

mutual

/-- What holds of every estimate from such statistics goes on to hold of all statistics. -/
theorem Derives.noted (hunknown : S .unknown)
    (hestimate : ∀ (op : Operator) inputs, (∀ x ∈ inputs, S x) →
      S (op.estimate catalog.statistics? inputs)) :
    ∀ {g : GroupId} {memo after : Memo ν}, Derives catalog g memo after → memo.Noted S W →
      after.Noted S W
  | _, _, _, .known _, h => h
  | _, _, _, .unknown _ _, h => noted_setStatistics (noted_setStatistics h _ hunknown) _ hunknown
  | _, _, _, .estimated _ _ hinputs, h => by
      obtain ⟨hbetween, hall⟩ :=
        DerivesAll.noted hunknown hestimate hinputs (noted_setStatistics h _ hunknown)
      exact noted_setStatistics hbetween _ (hestimate _ _ hall)

theorem DerivesAll.noted (hunknown : S .unknown)
    (hestimate : ∀ (op : Operator) inputs, (∀ x ∈ inputs, S x) →
      S (op.estimate catalog.statistics? inputs)) :
    ∀ {gs : List GroupId} {memo after : Memo ν} {inputs : List (Statistics ν)},
      DerivesAll catalog gs memo inputs after → memo.Noted S W →
        after.Noted S W ∧ ∀ x ∈ inputs, S x
  | _, _, _, _, .nil, h => ⟨h, fun _ hx => absurd hx List.not_mem_nil⟩
  | _, _, _, _, .cons hfirst hrest, h => by
      have hbetween := Derives.noted hunknown hestimate hfirst h
      obtain ⟨hafter, hall⟩ := DerivesAll.noted hunknown hestimate hrest hbetween
      exact ⟨hafter, List.forall_mem_cons.mpr ⟨hbetween.statisticsOf hunknown _, hall⟩⟩

end

end Notes

/-! ## Members -/

/-- A converter reads one group at most. -/
theorem length_slots_of_converter {ν : Type} {memo : Memo ν} (h : memo.Settled) {m : MemberId}
    {source : Convention} (hop : (memo.member m).op = .converter source) :
    (memo.member m).slots.length ≤ 1 := by
  rcases Nat.lt_or_ge m memo.members.size with hm | hm
  · have hlength := (h.member m hm).1.length_children
    rw [hop] at hlength
    rw [Member.slots, List.length_zip, hlength]
    exact Nat.min_le_left ..
  · have hdefault : memo.member m = default := by
      unfold Memo.member
      rw [Array.getElem?_eq_none hm]
      rfl
    rw [hdefault]
    exact Nat.zero_le 1

variable {log2 : Rat → Rat} {planner : Planner (Exact log2)} {memo : Memo (Exact log2)}

/-- A planner that has the built-in costs and no negative statistics of tables. -/
structure IsCosted (planner : Planner (Exact log2)) : Prop where
  convertlets : planner.registry.convertlets.entries = Convertlet.builtin
  costs : planner.costs = RowWork.standard.model
  tables : ∀ table s, planner.catalog.statistics? table = some s → s.IsNonnegative

/-- Nothing that is noted on groups is negative. -/
abbrev IsNonnegative (memo : Memo (Exact log2)) : Prop := memo.Noted Statistics.IsNonnegative (0 ≤ ·)

section Costs

variable (hlog2 : ∀ x, 1 < x → 0 ≤ log2 x) (hplanner : IsCosted planner)

include hplanner

/-- A converter adds its price to the cost of the one input that it has. -/
theorem total_le_price_of_converter (hnoted : IsNonnegative memo) {m : Member} {source : Convention}
    (hop : m.op = .converter source) (hconvertible : IsConvertible planner m)
    {costs : List (Exact log2)} (hlength : costs.length ≤ 1) :
    total costs ≤ price planner memo m costs := by
  obtain ⟨convertlet, hfound⟩ := hconvertible source hop
  have hmem : convertlet ∈ Convertlet.builtin := by
    rw [← hplanner.convertlets]
    exact (Convertlets.lookup?_eq_some_iff.mp hfound).1
  have hprice := Convertlet.price_nonneg hmem (memo.group m.group).rowType
    (hnoted.statisticsOf .unknown m.group).rows
  have htotal : total costs = costs.headD (ofNat 0) := by
    rcases costs with _ | ⟨y, _ | ⟨z, rest⟩⟩
    · exact Exact.ofNat_zero.symm
    · rfl
    · exact absurd hlength (by simp)
  unfold price
  rw [hop, htotal]
  dsimp only
  rw [hfound]
  exact le_add_of_nonneg_right hprice

include hlog2

/-- Any other member adds its work to the costs of its inputs. -/
theorem total_le_price_of_work (hnoted : IsNonnegative memo) {m : Member} (hphysical : m.isLogical = false)
    (hop : ¬ ∃ source, m.op = .converter source) (costs : List (Exact log2)) :
    total costs ≤ price planner memo m costs := by
  have hstatistics : ∀ s ∈ inputStatistics memo m, s.IsNonnegative := by
    unfold inputStatistics
    split
    · exact List.forall_mem_singleton.mpr (hnoted.statisticsOf .unknown _)
    · intro s hs
      obtain ⟨slot, -, rfl⟩ := List.mem_map.mp hs
      exact hnoted.statisticsOf .unknown slot.1
  have hprice : price planner memo m costs =
      RowWork.standard.model.cost m.op m.convention (inputStatistics memo m) costs := by
    rw [← hplanner.costs]
    unfold price
    split
    · next source hconverter => exact absurd ⟨source, hconverter⟩ hop
    · rfl
  rw [hprice]
  exact RowWork.total_le_cost hlog2 _ (of_decide_eq_false hphysical) hstatistics costs

/-- A member that can be run costs no less than its inputs do together, none of which costs less than
nothing. -/
theorem total_le_of_costOf (hmemo : memo.Settled) (hnoted : IsNonnegative memo) {m : MemberId}
    (hphysical : (memo.member m).isLogical = false) {x : Exact log2} {costs : List (Exact log2)}
    (hcost : costOf planner memo (memo.member m) = some (x, costs)) :
    (∀ y ∈ costs, 0 ≤ y) ∧ total costs ≤ x := by
  obtain ⟨hconvertible, hinputs, rfl⟩ := costOf_eq_some_iff.mp hcost
  constructor
  · intro y hy
    obtain ⟨slot, -, w, hw, rfl⟩ := exists_mem_of_forall₂ (inputCosts_eq_some_iff.mp hinputs) hy
    exact hnoted.winner hw
  · by_cases hconverter : ∃ source, (memo.member m).op = .converter source
    · obtain ⟨source, hop⟩ := hconverter
      have hlength := length_slots_of_converter hmemo hop
      rw [← length_of_inputCosts hinputs] at hlength
      exact total_le_price_of_converter hplanner hnoted hop hconvertible hlength
    · exact total_le_price_of_work hlog2 hplanner hnoted hphysical hconverter costs

/-- It passes the check. -/
theorem not_lt_largest_of_costOf (hmemo : memo.Settled) (hnoted : IsNonnegative memo) {m : MemberId}
    (hphysical : (memo.member m).isLogical = false) {x : Exact log2} {costs : List (Exact log2)}
    (hcost : costOf planner memo (memo.member m) = some (x, costs)) :
    Quantity.lt x (largest costs) = false := by
  obtain ⟨hcosts, hle⟩ := total_le_of_costOf hlog2 hplanner hmemo hnoted hphysical hcost
  rw [OrderedQuantity.lt_eq, decide_eq_false_iff_not]
  exact not_lt_of_ge ((largest_le_total hcosts).trans hle)

omit hlog2 hplanner in
theorem total_nonneg {costs : List (Exact log2)} (h : ∀ x ∈ costs, 0 ≤ x) : 0 ≤ total costs := by
  refine le_trans ?_ (largest_le_total h)
  have hlargest : ∀ (costs : List (Exact log2)) (a : Exact log2), 0 ≤ a →
      0 ≤ costs.foldl Quantity.max a := by
    intro costs
    induction costs with
    | nil => exact fun _ ha => ha
    | cons x rest ih =>
        intro a ha
        refine ih _ ?_
        rw [OrderedQuantity.max_eq]
        exact le_max_of_le_left ha
  exact hlargest costs _ (Exact.ofNat_nonneg 0)

/-- All that a search notes on groups is non-negative. -/
theorem Attained.noted (h : Attained planner memo) : IsNonnegative memo := by
  have hmodify := fun {memo : Memo (Exact log2)} (h : IsNonnegative memo) (g : GroupId) f hf =>
    Noted.modifyGroup (f := f) h g hf
  induction h with
  | start h =>
      induction h with
      | empty => exact noted_empty
      | addLogical _ op _ ih =>
          exact ((keeps_noted_add op .logical _ _).bind fun r => keeps_pure r.1) _ ih
  | addLogical _ op _ ih => exact ((keeps_noted_add op .logical _ _).bind fun r => keeps_pure r.1) _ ih
  | addTo _ op c inputs origin _ _ ih => exact keeps_noted_addTo _ op c _ inputs origin _ ih
  | require _ g c ih => exact hmodify ih g _ fun _ hgroup => hgroup.require c
  | markApplied _ m hash ih => exact ih
  | forget _ g ih => exact hmodify ih g _ fun _ hgroup => hgroup.withoutWinners
  | price _ g ih =>
      exact Derives.noted .unknown (fun op _ hinputs => op.isNonnegative_estimate hplanner.tables hinputs)
        (derives_priceGroup planner.catalog _ g) ih
  | crown h g hphysical hcost ih =>
      obtain ⟨hcosts, hle⟩ := total_le_of_costOf hlog2 hplanner h.settled ih hphysical hcost
      exact noted_crown ih g _ ((total_nonneg hcosts).trans hle)

/-! ## Searches -/

omit hlog2 hplanner in
/-- Nor does reading a plan off the winners. -/
theorem not_isNonMonotonic_of_extractBelow (fuel : Nat) {above : List (GroupId × Convention)}
    {g : GroupId} {c : Convention} {e : OptimizationError (Exact log2)}
    (h : memo.extractBelow fuel above g c = .error e) : ¬ e.IsNonMonotonic := by
  induction fuel generalizing above g c with
  | zero =>
      cases h
      exact id
  | succ fuel ih =>
      by_cases ha : (memo.leader g, c) ∈ above
      · unfold extractBelow at h
        dsimp only at h
        rw [List.contains_iff_mem.mpr ha] at h
        cases h
        exact id
      · rcases hw : memo.winner (memo.leader g) c with _ | w
        · unfold extractBelow at h
          dsimp only at h
          rw [if_neg (fun h => ha (List.contains_iff_mem.mp h)), hw] at h
          cases h
          exact id
        · obtain ⟨node, hnode⟩ := extractBelow_of_winner fuel ha hw
          rw [hnode] at h
          rcases hbelow : (memo.member w.member).slots.mapM fun slot =>
            memo.extractBelow fuel ((memo.leader g, c) :: above) slot.1 slot.2 with e' | children
          · rw [hbelow] at h
            cases h
            obtain ⟨slot, -, hslot⟩ := mapM_eq_error hbelow
            exact ih hslot
          · rw [hbelow] at h
            cases h

/-- Relaxing a member does not complain of its cost. -/
theorem obeys_relax (g : GroupId) (m : MemberId) :
    Obeys (fun s => Attained planner s.memo) (fun e => ¬ e.IsNonMonotonic) (relax planner g m) := by
  intro s hs
  have hkeeps : Keeps (fun s => Attained planner s.memo) (relax planner g m) :=
    keeps_relax (fun _ g _ _ _ hphysical hcost h => h.crown g hphysical hcost) g m
  refine ⟨hkeeps s hs, fun e he => ?_⟩
  rw [fails_iff, run_relax] at he
  split at he
  · cases he
  · next hl =>
      have hphysical := Bool.eq_false_iff.mpr hl
      rcases hchecked : checkedCost planner s.memo (s.memo.member m) with e' | _ | x
      · unfold checkedCost at hchecked
        rcases hcost : costOf planner s.memo (s.memo.member m) with _ | ⟨x, costs⟩
        · rw [hcost] at hchecked
          cases hchecked
        · rw [hcost] at hchecked
          dsimp only at hchecked
          rw [OrderedQuantity.undefined_eq, not_lt_largest_of_costOf hlog2 hplanner hs.settled
            (hs.noted hlog2 hplanner) hphysical hcost] at hchecked
          cases hchecked
      · rw [hchecked] at he
        cases he
      · rw [hchecked] at he
        dsimp only at he
        split at he
        · cases he
        · cases he

theorem obeys_findWinners :
    Obeys (fun s => Attained planner s.memo) (fun e => ¬ e.IsNonMonotonic) (findWinners planner) := by
  have hpass : ∀ groups, Obeys (fun s => Attained planner s.memo) (fun e => ¬ e.IsNonMonotonic)
      (relaxGroups planner groups) := by
    intro groups
    refine (obeys_forIn (fun g changed => ?_) false).bind fun _ => obeys_pure _
    refine (obeys_get.bind fun _ => obeys_pure _).bind fun memo => ?_
    refine (obeys_forIn (fun m changed => ?_) changed).bind fun _ => obeys_pure _
    refine (obeys_relax hlog2 hplanner g m).bind fun b => ?_
    cases b with
    | true => exact obeys_pure _
    | false => exact obeys_pure _
  have hsettle : ∀ groups fuel, Obeys (fun s => Attained planner s.memo)
      (fun e => ¬ e.IsNonMonotonic) (settle planner groups fuel) := by
    intro groups fuel
    induction fuel with
    | zero => exact obeys_throw id
    | succ fuel ih =>
        refine (hpass groups).bind fun b => ?_
        cases b with
        | true => exact ih
        | false => exact obeys_pure ()
  refine (obeys_get.bind fun _ => obeys_pure _).bind fun memo => Obeys.bind ?_ fun _ => ?_
  · exact Keeps.obeys (keeps_modify fun s hs => hs.prepare memo.liveGroups) (raises_modify _)
  · exact (obeys_get.bind fun _ => obeys_pure _).bind fun _ => hsettle _ _

section Rules

variable (hrules : ∀ rule ∈ planner.registry.rules, NamesGroups planner.catalog rule)

include hrules

theorem obeys_expand (root : GroupId) (goal : Goal (Exact log2)) (fuel : Nat) :
    Obeys (fun s => Attained planner s.memo) (fun e => ¬ e.IsNonMonotonic)
      (expand planner root goal fuel) := by
  have hkept := isKept_attained hrules
  have hmeets : Obeys (fun s => Attained planner s.memo) (fun e => ¬ e.IsNonMonotonic)
      (meetsCeiling planner root goal) := by
    unfold meetsCeiling
    split
    · exact obeys_pure _
    · refine (obeys_findWinners hlog2 hplanner).bind fun _ => ?_
      refine (obeys_get.bind fun _ => obeys_pure _).bind fun memo => ?_
      split
      · exact obeys_pure _
      · exact obeys_pure _
  have hfire := hkept.fireAll.obeys
    ((raises_fireAll planner).mono fun _ => OptimizationError.IsOfMembers.not_isNonMonotonic)
  have hconvert := (hkept.convertAll true).obeys
    ((raises_convertAll planner true).mono fun _ => OptimizationError.IsOfMembers.not_isNonMonotonic)
  induction fuel with
  | zero => exact obeys_pure _
  | succ fuel ih =>
      refine obeys_get.bind fun s => ?_
      split
      · exact obeys_pure _
      · refine hmeets.bind fun met => ?_
        split
        · exact obeys_pure _
        · refine hfire.bind fun fired => hconvert.bind fun converted => ?_
          split
          · exact ih
          · exact obeys_pure _

theorem obeys_settleGoal (root : GroupId) (goal : Goal (Exact log2)) :
    Obeys (fun s => Attained planner s.memo) (fun e => ¬ e.IsNonMonotonic)
      (settleGoal planner root goal) := by
  have hfind := obeys_findWinners hlog2 hplanner
  have hconvert := ((isKept_attained hrules).convertAll false).obeys
    ((raises_convertAll planner false).mono fun _ => OptimizationError.IsOfMembers.not_isNonMonotonic)
  refine hfind.bind fun _ => (obeys_get.bind fun _ => obeys_pure _).bind fun memo => ?_
  split
  · exact obeys_pure _
  · refine hconvert.bind fun _ => hfind.bind fun _ => ?_
    exact (obeys_get.bind fun _ => obeys_pure _).bind fun _ => obeys_pure _

/-- No search complains that a node came out cheaper than one of its inputs. -/
theorem not_isNonMonotonic_of_fails_optimize (hmemo : Attained planner memo) (root : GroupId)
    (goal : Goal (Exact log2)) {e : OptimizationError (Exact log2)}
    (h : Fails (optimize planner root goal) { memo := memo } e) : ¬ e.IsNonMonotonic := by
  have hobeys : Obeys (fun s => Attained planner s.memo) (fun e => ¬ e.IsNonMonotonic)
      (optimize planner root goal) := by
    refine ((keeps_modify fun s hs => hs.require root _).obeys (raises_modify _)).bind fun _ => ?_
    refine obeys_get.bind fun s => ?_
    refine (obeys_expand hlog2 hplanner hrules root goal _).bind fun exhausted => ?_
    refine (obeys_settleGoal hlog2 hplanner hrules root goal).bind fun settled => ?_
    split
    · split
      · exact obeys_get.bind fun _ => obeys_throw id
      · exact (obeys_get.bind fun _ => obeys_pure _).bind fun _ => obeys_throw id
    · refine (obeys_get.bind fun _ => obeys_pure _).bind fun memo => ?_
      refine ((keeps_lift _).obeys (raises_lift fun e he => ?_)).bind fun _ => obeys_pure _
      exact not_isNonMonotonic_of_extractBelow _ he
  exact (hobeys _ hmemo).2 e h

end Rules

end Costs

end Search

end QueryPlanner
