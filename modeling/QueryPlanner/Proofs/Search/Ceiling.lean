/-
# Ceilings that are not met

With a ceiling, winners are looked for before every round, to see whether the goal is met cheaply enough.
What this notes on groups has no part in the rounds, which read no notes. So if the ceiling is never met,
the memo that the rounds leave is that of a search without a ceiling, up to the notes. Of these only
statistics make a difference for the plan, and only if they would no longer be derived: groups may have
been merged since.

* `expand_without_ceiling` : the rounds are the same, unless a ceiling is met;
* `optimize_without_ceiling` : so is the plan, if the statistics are current.
-/
import QueryPlanner.Proofs.Comparison
import QueryPlanner.Proofs.Plan.Extraction
import QueryPlanner.Proofs.Search.Repricing

namespace QueryPlanner

open Memo Quantity

namespace Search

variable {ν : Type} [Quantity ν] {planner : Planner ν} {memo : Memo ν} {s t : Search ν}
  {root : GroupId} {c : Convention} {ceiling : ν}

/-! ## Rounds -/

/-- Looking for winners leaves nothing but notes behind. -/
theorem reread_of_returns_findWinners (h : Returns (findWinners planner) s () t) :
    t.reread = s.reread := by
  have hsame := findWinners_sameUpTo planner s
  rw [show (findWinners planner).run.run s = (.ok (), t) from h] at hsame
  rw [eq_of_returns_findWinners h]
  exact congrArg (fun memo => { s with memo := memo }) hsame.reread_eq

/-- Whether a ceiling is met is seen from the winners. -/
theorem returns_meetsCeiling_some {met : Bool}
    (h : Returns (meetsCeiling planner root ⟨c, some ceiling⟩) s met t) :
    Returns (findWinners planner) s () t ∧
      (met = true → ∃ w, t.memo.winner root c = some w ∧ le w.cost ceiling = true) := by
  obtain ⟨_, u, hfind, hrest⟩ := returns_bind.mp h
  obtain ⟨memo, v, hmemo, hanswer⟩ := returns_bind.mp hrest
  obtain ⟨rfl, rfl⟩ := returns_memoNow.mp hmemo
  rcases hw : v.memo.winner root c with _ | w
  · rw [hw] at hanswer
    obtain ⟨rfl, rfl⟩ := returns_pure.mp hanswer
    exact ⟨hfind, fun hb => absurd hb (by decide)⟩
  · rw [hw] at hanswer
    obtain ⟨rfl, rfl⟩ := returns_pure.mp hanswer
    exact ⟨hfind, fun hb => ⟨w, hw, hb⟩⟩

omit [Quantity ν] in
/-- Budgets run out at the same time. -/
theorem isExhausted_reread (budget : Budget) (s : Search ν) :
    isExhausted budget s.reread = isExhausted budget s := by
  have hcount : s.reread.memo.groupCount = s.memo.groupCount :=
    congrArg List.length liveGroups_reread
  unfold isExhausted
  rw [hcount]
  rfl

/-- What a round comes to: it ends the search if a budget has run out, if the ceiling is met, or if
nothing changes in it. -/
theorem returns_expand_succ {goal : Goal ν} {fuel : Nat} {b : Bool} :
    Returns (expand planner root goal (fuel + 1)) s b t ↔
      if isExhausted planner.budget s then b = true ∧ t = s
      else ∃ met u, Returns (meetsCeiling planner root goal) s met u ∧
        if met then b = false ∧ t = u
        else ∃ fired v, Returns (fireAll planner) u fired v ∧
          ∃ converted w, Returns (convertAll planner true) v converted w ∧
            if fired || converted then Returns (expand planner root goal fuel) w b t
            else b = false ∧ t = w := by
  have hround : Returns (expand planner root goal (fuel + 1)) s b t ↔
      Returns (if isExhausted planner.budget s then pure true else do
        if ← meetsCeiling planner root goal then return false
        let fired ← fireAll planner
        let converted ← convertAll planner true
        if fired || converted then expand planner root goal fuel else pure false) s b t := Iff.rfl
  rw [hround]
  simp only [returns_ite, returns_bind, returns_pure]

section Rounds

variable (hnames : ∀ rule ∈ planner.registry.rules, NamesGroups planner.catalog rule)
  (hblind : ∀ rule ∈ planner.registry.rules, rule.IgnoresNotes planner.catalog)

include hnames hblind

/-- The rounds of a search without a ceiling are the same, unless one ends with a winner that is no
dearer than the ceiling. -/
theorem expand_without_ceiling {fuel : Nat} {b : Bool} (hs : Attained planner s.memo)
    (h : Returns (expand planner root ⟨c, some ceiling⟩ fuel) s b t) :
    Returns (expand planner root ⟨c, none⟩ fuel) s.reread b t.reread ∨
      ∃ u w, Attained planner u.memo ∧ Returns (findWinners planner) u () t ∧
        t.memo.winner root c = some w ∧ le w.cost ceiling = true := by
  have hkept := isKept_attained hnames
  induction fuel generalizing s with
  | zero =>
      obtain ⟨rfl, rfl⟩ := returns_pure.mp h
      exact Or.inl (returns_pure.mpr ⟨rfl, rfl⟩)
  | succ fuel ih =>
      rw [returns_expand_succ] at h ⊢
      rw [isExhausted_reread]
      by_cases hexhausted : isExhausted planner.budget s = true
      · rw [if_pos hexhausted] at h ⊢
        obtain ⟨rfl, rfl⟩ := h
        exact Or.inl ⟨rfl, rfl⟩
      · rw [if_neg hexhausted] at h ⊢
        obtain ⟨met, u, hmeet, hround⟩ := h
        obtain ⟨hfind, hmet⟩ := returns_meetsCeiling_some hmeet
        have hu := (keeps_attained_findWinners planner).of_returns hfind hs
        cases met with
        | true =>
            obtain ⟨-, rfl⟩ := hround
            obtain ⟨w, hw, hle⟩ := hmet rfl
            exact Or.inr ⟨s, w, hs, hfind, hw, hle⟩
        | false =>
            obtain ⟨fired, v, hfire, converted, w, hconvert, hend⟩ := hround
            have hw := (hkept.convertAll true).of_returns hconvert (hkept.fireAll.of_returns hfire hu)
            have hfire' := (isBlind_fireAll hblind u).returns hfire
            have hconvert' := (isBlind_convertAll true v).returns hconvert
            rw [reread_of_returns_findWinners hfind] at hfire'
            -- without a ceiling, the passes follow at once
            have hskip : Returns (meetsCeiling planner root ⟨c, none⟩) s.reread false s.reread :=
              returns_pure.mpr ⟨rfl, rfl⟩
            by_cases hagain : (fired || converted) = true
            · rw [if_pos hagain] at hend
              refine (ih hw hend).imp_left fun hlast => ?_
              exact ⟨false, _, hskip, fired, _, hfire', converted, _, hconvert', by rwa [if_pos hagain]⟩
            · rw [if_neg hagain] at hend
              obtain ⟨rfl, rfl⟩ := hend
              refine Or.inl ⟨false, _, hskip, fired, _, hfire', converted, _, hconvert', ?_⟩
              rw [if_neg hagain]
              exact ⟨rfl, rfl⟩

end Rounds

/-! ## Plans -/

/-- Settling the goal comes to the same without notes, if the statistics are current. -/
theorem run_settleGoal_reread (hs : Attained planner s.memo) (hcurrent : IsCurrent planner.catalog s.memo)
    (goal : Goal ν) : (settleGoal planner root goal).run.run s.reread =
      (settleGoal planner root goal).run.run s :=
  run_bind_congr (run_findWinners_reread hs hcurrent) _

/-- After winners were found, the goal is settled by those. -/
theorem returns_settleGoal_of_findWinners (hs : Attained planner s.memo)
    (hfind : Returns (findWinners planner) s () t) (goal : Goal ν) {w : Winner ν}
    (hw : t.memo.winner root goal.convention = some w) :
    Returns (settleGoal planner root goal) t (some w) t := by
  refine (findWinners_again hs hfind).bind ((returns_memoNow.mpr ⟨rfl, rfl⟩).bind ?_)
  rw [hw]
  exact returns_pure.mpr ⟨rfl, rfl⟩

/-- A plan costs what its winner does. -/
theorem cost_of_extract (hled : memo.Led) {node : PlanNode ν} {w : Winner ν}
    (hw : memo.winner root c = some w) (h : memo.extract root c = .ok node) : node.cost = w.cost := by
  obtain ⟨v, children, hv, -, rfl⟩ := exists_of_extractBelow h
  rw [winner_congr (hled.leader_leader root), hw] at hv
  obtain rfl := Option.some.inj hv
  rfl

/-- A plan that is over the ceiling was found in the rounds of a search without a ceiling, up to notes. If
the statistics that were noted by their end are current, then it is also what that search returns, with
the same costs and numbers of rows; it counts as truncated only if a budget ran out. -/
theorem optimize_without_ceiling
    (hnames : ∀ rule ∈ planner.registry.rules, NamesGroups planner.catalog rule)
    (hblind : ∀ rule ∈ planner.registry.rules, rule.IgnoresNotes planner.catalog)
    (hmemo : LogicallyBuilt memo) {plan : Plan ν}
    (h : Returns (optimize planner root ⟨c, some ceiling⟩) { memo := memo } plan t)
    (hover : le plan.cost ceiling = false) :
    ∃ exhausted u, Returns (expand planner root ⟨c, some ceiling⟩ (planner.budget.iterations + 1))
        { memo := memo.require root c } exhausted u ∧
      Returns (expand planner root ⟨c, none⟩ (planner.budget.iterations + 1))
        { memo := memo.require root c } exhausted u.reread ∧
      (IsCurrent planner.catalog u.memo → ∃ t',
        Returns (optimize planner root ⟨c, none⟩) { memo := memo } ⟨plan.root, exhausted⟩ t') := by
  obtain ⟨exhausted, u, w, hexpand, hsettle, node, hnode, rfl⟩ := returns_optimize_iff.mp h
  have hkept := isKept_attained hnames
  have hrequired : Attained planner (memo.require root c) := (Attained.start hmemo).require root c
  have hu : Attained planner u.memo := (hkept.expand root _ _).of_returns hexpand hrequired
  have ht : Attained planner t.memo := (hkept.settleGoal root _).of_returns hsettle hu
  have hfresh : ({ memo := memo.require root c } : Search ν).reread = { memo := memo.require root c } := by
    have hnotes : (memo.require root c).reread = memo.require root c := by
      rw [← require_reread, hmemo.reread_eq]
    exact congrArg (fun memo => ({ memo := memo } : Search ν)) hnotes
  refine ⟨exhausted, u, hexpand, ?_⟩
  rcases expand_without_ceiling hnames hblind hrequired hexpand with hrounds | ⟨v, w', hv, hfind, hw', hle⟩
  · rw [hfresh] at hrounds
    refine ⟨hrounds, fun hcurrent => ⟨t, returns_optimize_iff.mpr ?_⟩⟩
    refine ⟨exhausted, u.reread, w, hrounds, ?_, node, hnode, ?_⟩
    · exact (run_settleGoal_reread hu hcurrent _).trans hsettle
    · exact congrArg (Plan.mk node) (Bool.or_false exhausted).symm
  · -- if a winner had been cheap enough, it would have been found again
    have hagain := returns_settleGoal_of_findWinners hv hfind ⟨c, some ceiling⟩ hw'
    have hsame := Prod.mk.inj (hsettle.symm.trans hagain)
    obtain rfl := Option.some.inj (Except.ok.inj hsame.1)
    obtain rfl := hsame.2
    have hcost : node.cost = w.cost := cost_of_extract ht.settled.led hw' hnode
    have hunmet : le node.cost ceiling = false := hover
    rw [hcost, hle] at hunmet
    cases hunmet

end Search

end QueryPlanner
