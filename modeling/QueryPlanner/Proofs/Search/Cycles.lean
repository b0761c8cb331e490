/-
# Plans and cycles of winners

A converter reads its own group, and so does a member of merged groups. Where such a member
adds nothing to the cost of its input and is older than what the input is made from, it can win
over it, and then the winners go round in a cycle that no plan can be read off.

* `optimize_plan_iff` : once the goal has a winner, a plan is returned just when no cycle of
  winners can be reached from the root, and otherwise the error is that of a cyclic plan;
* `cost_eq_of_cycle` : all winners on a cycle cost the same, so that only work that is free
  can lead into one;
* `optimize_wholeTable` : this does happen.
-/
import QueryPlanner.Proofs.Memo.Cycles
import QueryPlanner.Proofs.Registry
import QueryPlanner.Proofs.Search.Optimality
import QueryPlanner.Request.Resolution

namespace QueryPlanner

open Quantity Relation

namespace Search

variable {ν : Type} [Quantity ν] {planner : Planner ν}

/-! ## Winners read winners -/

/-- A member with a cost reads winners, so that winners read winners when it is crowned. -/
theorem isKeptByCrowning_isClosed : IsKeptByCrowning planner Memo.IsClosed := by
  intro memo g m x costs hg _ _ hcost _ _ hclosed other d w hw slot hslot
  change slot ∈ (memo.member w.member).slots at hslot
  have hread : ∃ v, memo.winner slot.1 slot.2 = some v := by
    rw [winner_crown hg] at hw
    split at hw
    · cases hw
      -- the member has a cost, so that all its inputs have winners
      obtain ⟨v, hv, -⟩ := exists_winner_of_mem_slots hcost hslot
      exact ⟨v, hv⟩
    · exact Option.isSome_iff_exists.mp (hclosed other d w hw slot hslot)
  obtain ⟨v, hv⟩ := hread
  obtain ⟨v', hv', -⟩ := exists_winner_crown hg (P := fun _ => True) (fun _ _ _ => trivial) hv trivial
  exact Option.isSome_iff_exists.mpr ⟨v', hv'⟩

/-- When winners were found, they read winners. -/
theorem isClosed_findWinners {s t : Search ν} (hled : s.memo.Led)
    (h : Returns (findWinners planner) s () t) : t.memo.IsClosed :=
  (returns_findWinners hled h isKeptByCrowning_isClosed fun _ _ hnone g c w hw => by
    rw [hnone] at hw
    cases hw).1

/-- When the goal was settled, winners read winners, and the answer is that of the goal. -/
theorem isClosed_settleGoal {root : GroupId} {goal : Goal ν} {s t : Search ν}
    {r : Option (Winner ν)} (hs : Reachable s.memo)
    (h : Returns (settleGoal planner root goal) s r t) :
    t.memo.Led ∧ t.memo.IsClosed ∧ t.memo.winner root goal.convention = r := by
  obtain ⟨u, hkept, hfind, hw⟩ := returns_settleGoal h
  have hu := hkept Reachable (isKept_reachable planner) hs
  have ht := (isKept_reachable planner).findWinners.of_returns hfind hu
  exact ⟨ht.led, isClosed_findWinners hu.led hfind, hw⟩

/-! ## Plans -/

/-- Once the goal has a winner, what is returned is the plan that is extracted. -/
theorem run_optimize {root : GroupId} {goal : Goal ν} {s u t : Search ν} {exhausted : Bool}
    {w : Winner ν}
    (hexpand : (expand planner root goal (planner.budget.iterations - s.iterations + 1)).run.run
      { s with memo := s.memo.require root goal.convention } = (.ok exhausted, u))
    (hsettle : (settleGoal planner root goal).run.run u = (.ok (some w), t)) :
    ∃ truncated, (optimize planner root goal).run.run s =
      ((t.memo.extract root goal.convention).map fun node => ⟨node, truncated⟩, t) := by
  refine ⟨exhausted || goal.ceiling.any fun ceiling => lt ceiling w.cost, ?_⟩
  unfold optimize
  rw [run_bind_of_ok (show (modifyMemo fun memo => memo.require root goal.convention : Step ν Unit
    ).run.run s = (.ok (), { s with memo := s.memo.require root goal.convention }) from rfl)]
  rw [run_bind_of_ok (show (get : Step ν (Search ν)).run.run _ = (.ok _, _) from rfl)]
  dsimp only
  rw [run_bind_of_ok hexpand, run_bind_of_ok hsettle]
  dsimp only
  rw [run_bind_of_ok (show (memoNow : Step ν (Memo ν)).run.run t = (.ok t.memo, t) from rfl)]
  rcases t.memo.extract root goal.convention with e | node
  · rfl
  · rfl

/-- A plan is returned just when no cycle of winners can be reached. In any search from a memo
that a search can come to, with any registry, costs, budget and goal: once the winners that
were found include one for the goal, a plan is returned if and only if no cycle of winners can be
reached from the root, and otherwise the error is that of a plan that contains itself at a
winner on such a cycle. -/
theorem optimize_plan_iff {root : GroupId} {goal : Goal ν} {s u t : Search ν} {exhausted : Bool}
    {w : Winner ν} (hs : Reachable s.memo)
    (hexpand : (expand planner root goal (planner.budget.iterations - s.iterations + 1)).run.run
      { s with memo := s.memo.require root goal.convention } = (.ok exhausted, u))
    (hsettle : (settleGoal planner root goal).run.run u = (.ok (some w), t)) :
    ((∃ plan, (optimize planner root goal).run.run s = (.ok plan, t)) ↔
        ¬ t.memo.ReachesCycle (t.memo.leader root, goal.convention)) ∧
      ∀ e, (optimize planner root goal).run.run s = (.error e, t) →
        ∃ q : GroupId × Convention, e = .cyclicPlan q.1 q.2 ∧
          ReflTransGen t.memo.Reads (t.memo.leader root, goal.convention) q ∧
          TransGen t.memo.Reads q q := by
  have hrequired : Reachable (s.memo.require root goal.convention) :=
    hs.require root goal.convention
  have hu : Reachable u.memo :=
    ((isKept_reachable planner).expand root goal _).of_returns hexpand hrequired
  obtain ⟨hled, hclosed, hw⟩ := isClosed_settleGoal hu hsettle
  have hsome : (t.memo.winner root goal.convention).isSome := by
    rw [hw]
    rfl
  obtain ⟨truncated, hrun⟩ := run_optimize hexpand hsettle
  -- extraction from winners that read winners fails at a cycle or not at all
  rcases Memo.extract_cases hled hclosed hsome with ⟨hno, node, hnode⟩ | ⟨q, herror, hreach, hcycle⟩
  · rw [hrun, hnode]
    refine ⟨⟨fun _ => hno, fun _ => ⟨_, rfl⟩⟩, fun e he => ?_⟩
    cases he
  · rw [hrun, herror]
    refine ⟨⟨?_, fun hno => absurd ⟨q, hreach, hcycle⟩ hno⟩, fun e he => ?_⟩
    · rintro ⟨plan, hplan⟩
      cases hplan
    · cases he
      exact ⟨q, rfl, hreach, hcycle⟩

/-- In the example of a row and a loop over it no cycle can be reached, and a plan is returned. -/
theorem optimize_plan_iff_rowAndLoop :
    ∃ plan t, (optimize rationalPlanner 0 ⟨.compiled, none⟩).run.run { memo := rowAndLoop } =
        (.ok plan, t) ∧ ¬ t.memo.ReachesCycle (t.memo.leader 0, .compiled) := by
  obtain ⟨goal, hgoal⟩ : ∃ goal : Goal Rat, goal = ⟨.compiled, none⟩ := ⟨_, rfl⟩
  obtain ⟨s, hs⟩ : ∃ s : Search Rat, s = { memo := rowAndLoop } := ⟨_, rfl⟩
  -- both halves of the search are evaluated at once, so that no state between them is spelled out
  have hwinner : ((do
      let _ ← expand rationalPlanner 0 goal (rationalPlanner.budget.iterations - s.iterations + 1)
      settleGoal rationalPlanner 0 goal : Step Rat (Option (Winner Rat))).run.run
        { s with memo := s.memo.require 0 goal.convention }).1.toOption.join.isSome := by
    subst hgoal hs
    decide +kernel
  have hplan : ((optimize rationalPlanner 0 goal).run.run s).1.toOption.isSome := by
    subst hgoal hs
    decide +kernel
  obtain ⟨w, hw⟩ := Option.isSome_iff_exists.mp hwinner
  obtain ⟨exhausted, u, hexpand, hsettle⟩ :=
    returns_bind.mp (returns_of_toOption (Option.join_eq_some_iff.mp hw))
  obtain ⟨plan, hreturned⟩ := Option.isSome_iff_exists.mp hplan
  have hreachable : Reachable s.memo := by
    rw [hs]
    exact reachable_rowAndLoop
  obtain ⟨truncated, hrun⟩ := run_optimize hexpand hsettle
  have hreturns := returns_of_toOption hreturned
  rw [show ((optimize rationalPlanner 0 goal).run.run s).2 = _ from congrArg Prod.snd hrun]
    at hreturns
  have hno := (optimize_plan_iff hreachable hexpand hsettle).1.mp ⟨plan, hreturns⟩
  subst hgoal hs
  exact ⟨plan, _, hreturns, hno⟩

/-! ## Cycles are free -/

section Order

variable [LinearOrder ν] [OrderedQuantity ν] {s t : Search ν}

/-- Over ordered costs no winner is cheaper than what it reads. -/
theorem cost_le_of_reads (hmono : planner.costs.IsMonotone) (hs : Reachable s.memo)
    (h : (findWinners planner).run.run s = (.ok (), t)) {p q : GroupId × Convention}
    (hpq : t.memo.Reads p q) :
    ∃ w v, t.memo.winner p.1 p.2 = some w ∧ t.memo.winner q.1 q.2 = some v ∧ v.cost ≤ w.cost := by
  obtain ⟨hsettled, hsteady⟩ := findWinners_settled hmono hs.led h
  have hled : t.memo.Led := ((isKept_reachable planner).findWinners.of_returns h hs).led
  obtain ⟨w, hw, slot, hslot, rfl⟩ := hpq
  obtain ⟨costs, hcost⟩ := hsettled.costOf_winner hled hsteady hw
  have hlargest := (exists_winner_le_cost hled hsteady (hsettled.offered _ _ w hw) hcost).1
  obtain ⟨v, hv, hvcost⟩ := exists_winner_of_mem_slots hcost hslot
  refine ⟨w, v, hw, ?_, (le_largest hvcost).trans hlargest⟩
  rw [Memo.winner_congr (hled.leader_leader _)]
  exact hv

/-- Over ordered costs all winners on a cycle cost the same: a plan that contains itself is
made of steps that are free. -/
theorem cost_eq_of_cycle (hmono : planner.costs.IsMonotone) (hs : Reachable s.memo)
    (h : (findWinners planner).run.run s = (.ok (), t)) {p q : GroupId × Convention}
    (hpq : TransGen t.memo.Reads p q) (hqp : TransGen t.memo.Reads q p) :
    ∃ w v, t.memo.winner p.1 p.2 = some w ∧ t.memo.winner q.1 q.2 = some v ∧ v.cost = w.cost := by
  -- along a way of winners costs do not grow; around a cycle they return to the first
  have hle : ∀ {a b}, TransGen t.memo.Reads a b → ∃ w v, t.memo.winner a.1 a.2 = some w ∧
      t.memo.winner b.1 b.2 = some v ∧ v.cost ≤ w.cost := by
    intro a b hab
    induction hab with
    | single hstep => exact cost_le_of_reads hmono hs h hstep
    | tail _ hstep ih =>
        obtain ⟨w, v, hw, hv, hvw⟩ := ih
        obtain ⟨v', x, hv', hx, hxv⟩ := cost_le_of_reads hmono hs h hstep
        cases hv.symm.trans hv'
        exact ⟨w, x, hw, hx, hxv.trans hvw⟩
  obtain ⟨w, v, hw, hv, hvw⟩ := hle hpq
  obtain ⟨v', w', hv', hw', hwv⟩ := hle hqp
  cases hw.symm.trans hw'
  cases hv.symm.trans hv'
  exact ⟨w, v, hw, hv, le_antisymm hvw hwv⟩

end Order

/-! ## A cycle -/

/-- An empty table of a foreign source. -/
def foreignTable : Request.Table :=
  { schema := "s", name := "t", columns := [⟨"a", .int64, true⟩], rowCount := none,
    federated := true, rows := [] }

/-- The projection of the table to its only column. -/
def wholeTable : Request.Relation :=
  .project [⟨"a", .int64, .column 0⟩] (.scan "s" "t")

/-- Where a failed optimization would have made a plan contain itself. -/
def cycleOf {α : Type} : Except (OptimizationError Float) α → Option (GroupId × Convention)
  | .error (.cyclicPlan g c) => some (g, c)
  | _ => none

theorem eq_of_cycleOf {α : Type} {outcome : Except (OptimizationError Float) α} {g : GroupId}
    {c : Convention} (h : cycleOf outcome = some (g, c)) : outcome = .error (.cyclicPlan g c) := by
  rcases outcome with (_ | _ | _ | _ | _ | _ | _) | _ <;> cases h
  rfl

/-- The projection of an empty foreign table to all its columns can be planned, but is not:
in the group of both the projection, which reads the group itself, is as cheap as fetching
the table and older than the converter for it. -/
theorem optimize_wholeTable :
    ∃ registry memo, Registry.standard = .ok registry ∧
      (Request.build [foreignTable] wholeTable).run.run {} = (.ok 1, memo) ∧
      QueryPlanner.optimize registry (Request.catalog [foreignTable]) memo 1 ⟨.iterator, none⟩ =
        .error (.cyclicPlan 0 .iterator) := by
  have hroot : ((Request.build [foreignTable] wholeTable).run.run {}).1 = .ok 1 := by
    decide +kernel
  have hcycle : cycleOf (QueryPlanner.optimize .builtin
      (Request.catalog [foreignTable]) ((Request.build [foreignTable] wholeTable).run.run {}).2 1
      ⟨.iterator, none⟩) = some (0, .iterator) := by
    decide +kernel
  exact ⟨_, _, Registry.standard_eq, Prod.ext hroot rfl, eq_of_cycleOf hcycle⟩

end Search

end QueryPlanner
