/-
# Winners are optimal

The members of a memo form a graph with cycles: converters read their own group, and so do
members of merged groups. Nevertheless relaxation ends with the least costs over all finite
derivations, and with the oldest members that attain them.

* `Settling.exists_winner_le` : no derivation is cheaper than the winner;
* `findWinners_optimal` : a group has a winner in a convention just when it can be derived
  there, the winner costs the least of all derivations, and it is the oldest member of that cost.
-/
import Mathlib.Order.Bounds.Defs
import QueryPlanner.Proofs.Registry
import QueryPlanner.Proofs.Search.Reachability
import QueryPlanner.Proofs.Search.Relaxation

namespace QueryPlanner

open Quantity

namespace Search

variable {ν : Type} [Quantity ν] [LinearOrder ν] [OrderedQuantity ν]
variable {planner : Planner ν} {memo : Memo ν}

/-- What does not improve on a winner costs no less than it. -/
theorem le_of_not_improves {m : MemberId} {x : ν} {w : Winner ν}
    (h : improves m x (some w) = false) : w.cost ≤ x := by
  unfold improves at h
  dsimp only at h
  rw [OrderedQuantity.lt_eq] at h
  exact not_lt.mp (of_decide_eq_false (Bool.or_eq_false_iff.mp h).1)

/-- A steady member with a cost is beaten by a winner, also in a group that stands for
another one, and costs no less than its inputs. -/
theorem exists_winner_le_cost (hled : memo.Led)
    (hsteady : AreSteady planner memo memo.liveGroups) {m : MemberId} {g : GroupId} {c : Convention}
    (h : Offers planner memo m g c) {x : ν} {costs : List ν}
    (hx : costOf planner memo (memo.member m) = some (x, costs)) :
    largest costs ≤ x ∧
      ∃ w, memo.winner g c = some w ∧ w.cost ≤ x ∧ (x = w.cost → w.member ≤ m) := by
  have hg : g < memo.groups.size := by
    by_contra hge
    have hnone := Memo.members_group_of_le (hled.le_leader (Nat.le_of_not_lt hge))
    have hm := h.listed
    rw [hnone] at hm
    exact List.not_mem_nil hm
  have hself := hled.leader_leader g
  have hm : m ∈ (memo.group (memo.leader g)).members := by
    rw [Memo.members_congr hself]
    exact h.listed
  obtain ⟨himp, hlargest⟩ := hsteady _ (hled.leader_mem_liveGroups hg) m hm h.physical x costs hx
  rw [OrderedQuantity.lt_eq] at hlargest
  refine ⟨not_lt.mp (of_decide_eq_false hlargest), ?_⟩
  rw [h.convention, Memo.winner_congr hself] at himp
  rcases hw : memo.winner g c with _ | w
  · rw [hw] at himp
    cases himp
  · rw [hw] at himp
    refine ⟨w, rfl, le_of_not_improves himp, fun heq => ?_⟩
    unfold improves at himp
    dsimp only at himp
    rw [OrderedQuantity.same_eq, heq, decide_eq_true rfl, Bool.true_and] at himp
    exact not_lt.mp (of_decide_eq_false (Bool.or_eq_false_iff.mp himp).2)

/-- No derivation is cheaper than the winner. -/
theorem Settling.exists_winner_le (hmono : planner.costs.IsMonotone) (hled : memo.Led)
    (hsteady : AreSteady planner memo memo.liveGroups) {g : GroupId} {c : Convention}
    (t : Derivation planner memo g c) : ∃ w, memo.winner g c = some w ∧ w.cost ≤ t.cost := by
  induction t with
  | @node g c m offered inputs ih =>
      choose winners hwinners hle using ih
      have hcosts : inputCosts memo (memo.member m) =
          some (List.ofFn fun i => (winners i).cost) := by
        rw [inputCosts_eq_some_iff, List.forall₂_iff_get]
        refine ⟨(List.length_ofFn).symm, fun i hi _ => ⟨winners ⟨i, hi⟩, hwinners ⟨i, hi⟩, ?_⟩⟩
        rw [List.get_ofFn]
        rfl
      -- the member of the root costs no more over winners than over the trees below it
      have hcheaper : List.Forall₂ (· ≤ ·) (List.ofFn fun i => (winners i).cost)
          (List.ofFn fun i => (inputs i).cost) := by
        rw [List.forall₂_iff_get]
        refine ⟨by rw [List.length_ofFn, List.length_ofFn], fun i hi hi' => ?_⟩
        rw [List.get_ofFn, List.get_ofFn]
        exact hle _
      have hcost := costOf_eq_some_iff.mpr ⟨offered.convertible, hcosts, rfl⟩
      obtain ⟨-, w, hw, hwle, -⟩ := exists_winner_le_cost hled hsteady offered hcost
      exact ⟨w, hw, hwle.trans (price_mono hmono _ hcheaper)⟩

/-- A settled winner among steady members costs what it did when it was crowned. -/
theorem Settling.costOf_winner (h : Settling planner memo memo) (hled : memo.Led)
    (hsteady : AreSteady planner memo memo.liveGroups) {g : GroupId} {c : Convention}
    {w : Winner ν} (hw : memo.winner g c = some w) :
    ∃ costs, costOf planner memo (memo.member w.member) = some (w.cost, costs) := by
  have hoffer := h.offered g c w hw
  obtain ⟨costs, hcosts, hle⟩ := h.backed g c w hw
  have hcost := costOf_eq_some_iff.mpr ⟨hoffer.convertible, hcosts, rfl⟩
  -- it is backed, so it costs no more than when it was crowned; it is steady, so no less
  obtain ⟨-, v, hv, hvle, -⟩ := exists_winner_le_cost hled hsteady hoffer hcost
  cases hw.symm.trans hv
  rw [le_antisymm hle hvle] at hcost
  exact ⟨costs, hcost⟩

/-- A settled winner among steady members is the oldest of the members that cost what it does. -/
theorem Settling.isLeast_member (h : Settling planner memo memo) (hled : memo.Led)
    (hsteady : AreSteady planner memo memo.liveGroups) {g : GroupId} {c : Convention}
    (hc : c ≠ .logical) {w : Winner ν} (hw : memo.winner g c = some w) :
    IsLeast {m | m ∈ (memo.group g).members ∧ (memo.member m).convention = c ∧
      ∃ costs, costOf planner memo (memo.member m) = some (w.cost, costs)} w.member := by
  constructor
  · have hoffer := h.offered g c w hw
    exact ⟨hoffer.listed, hoffer.convention, h.costOf_winner hled hsteady hw⟩
  · rintro m ⟨hm, hconv, costs, hcost⟩
    have hphysical : (memo.member m).isLogical = false := by
      unfold Member.isLogical Convention.isLogical
      rw [hconv]
      exact decide_eq_false hc
    have hoffer : Offers planner memo m g c :=
      ⟨hm, hphysical, hconv, (costOf_eq_some_iff.mp hcost).1⟩
    obtain ⟨-, v, hv, -, hold⟩ := exists_winner_le_cost hled hsteady hoffer hcost
    cases hw.symm.trans hv
    exact hold rfl

/-- Winners are optimal. Whenever winners were found in a memo that a search can come to, over
costs of a linear order and with a monotone cost model: a group has a winner in a physical
convention just when it can be derived there; the winner's cost is the least of all
derivations; and the winner is the oldest member of the group in the convention that costs
this much over the winners of its inputs. -/
theorem findWinners_optimal (hmono : planner.costs.IsMonotone) {s t : Search ν}
    (hs : Reachable s.memo) (h : (findWinners planner).run.run s = (.ok (), t))
    (g : GroupId) {c : Convention} (hc : c ≠ .logical) :
    ((t.memo.winner g c).isSome ↔ Nonempty (Derivation planner t.memo g c)) ∧
      ∀ w, t.memo.winner g c = some w →
        IsLeast (Set.range fun d : Derivation planner t.memo g c => d.cost) w.cost ∧
        IsLeast {m | m ∈ (t.memo.group g).members ∧ (t.memo.member m).convention = c ∧
          ∃ costs, costOf planner t.memo (t.memo.member m) = some (w.cost, costs)} w.member := by
  obtain ⟨hsettled, hsteady⟩ := findWinners_settled hmono hs.led h
  have hled : t.memo.Led := by
    have hsame := findWinners_sameUpTo planner s
    rw [h] at hsame
    exact hsame.symm.led hs.led
  have hleast : ∀ d : Derivation planner t.memo g c,
      ∃ w, t.memo.winner g c = some w ∧ w.cost ≤ d.cost := fun d =>
    Settling.exists_winner_le hmono hled hsteady d
  -- soundness is that winners are attained, completeness that none of the trees is cheaper
  refine ⟨⟨fun hsome => ?_, fun ⟨d⟩ => ?_⟩, fun w hw => ⟨⟨?_, ?_⟩, ?_⟩⟩
  · obtain ⟨w, hw⟩ := Option.isSome_iff_exists.mp hsome
    obtain ⟨d, -⟩ := hsettled.attained g c w hw
    exact ⟨d⟩
  · obtain ⟨w, hw, -⟩ := hleast d
    exact Option.isSome_iff_exists.mpr ⟨w, hw⟩
  · exact hsettled.attained g c w hw
  · rintro x ⟨d, rfl⟩
    obtain ⟨v, hv, hle⟩ := hleast d
    cases hw.symm.trans hv
    exact hle
  · exact hsettled.isLeast_member hled hsteady hc hw

/-- One row of a column, in a group with a pipeline that gives it and a loop over that
pipeline, which reads the group itself. -/
def rowAndLoop : Memo Rat :=
  let values : Operator := .values ⟨[⟨"a", .int64, true⟩]⟩ [[.int 1]]
  let logical := ((Memo.add values .logical [] []).run.run (.empty : Memo Rat)).2
  let pulled := ((Memo.addTo 0 values .iterator [] [] "").run.run logical).2
  ((Memo.addTo 0 (.converter .iterator) .compiled [0] [.iterator] "").run.run pulled).2

/-- A planner over rational costs with the built-in convertlets and no rules. -/
def rationalPlanner : Planner Rat where
  registry := { Registry.builtin with rules := [], implementors := [] }
  costs := RowWork.standard.model
  catalog := {}
  budget := {}

theorem reachable_rowAndLoop : Reachable rowAndLoop :=
  ((Reachable.empty.add _ _ _ _).addTo _ _ _ _ _ _).addTo _ _ _ _ _ _

/-- In the example the loop is derived at the cost of the pipeline and a tenth of a row, and
no derivation is cheaper. -/
theorem findWinners_optimal_rowAndLoop :
    ∃ t, (findWinners rationalPlanner).run.run { memo := rowAndLoop } = (.ok (), t) ∧
      Nonempty (Derivation rationalPlanner t.memo 0 .compiled) ∧
      IsLeast (Set.range fun d : Derivation rationalPlanner t.memo 0 .compiled => d.cost)
        (11 / 10) := by
  rcases hrun : (findWinners rationalPlanner).run.run { memo := rowAndLoop } with ⟨r, t⟩
  have hok : ((findWinners rationalPlanner).run.run { memo := rowAndLoop }).1.toOption =
      some () := by
    decide +kernel
  have hcost : (((findWinners rationalPlanner).run.run { memo := rowAndLoop }).2.memo.winner 0
      .compiled).map Winner.cost = some (11 / 10) := by
    decide +kernel
  rw [hrun] at hok hcost
  rcases r with e | ⟨⟨⟩⟩
  · cases hok
  · obtain ⟨w, hw, hwc⟩ := Option.map_eq_some_iff.mp hcost
    obtain ⟨hsome, hleast⟩ := findWinners_optimal (RowWork.isMonotone_model _)
      reachable_rowAndLoop hrun 0 (c := .compiled) (by decide)
    refine ⟨t, rfl, hsome.mp (by rw [hw]; rfl), ?_⟩
    rw [← hwc]
    exact (hleast w hw).1

end Search

end QueryPlanner
