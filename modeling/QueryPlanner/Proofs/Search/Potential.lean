/-
# Relaxation ends

Passes over the members of a memo go on until no winner changes, and nothing counts them. They end
all the same: a winner only gives way to a cheaper one, or to an older one that is as cheap, and of
costs and members there are only so many. How much there is left to improve is a number, which every
new winner makes smaller, whatever costs are charged and however groups read each other.

* `Memo.potential` : how much there is left to improve;
* `potential_crown_lt` : a new winner leaves less;
* `exists_loop_settle` : the bound on the number of passes is never reached.
-/
import Mathlib.Algebra.Order.BigOperators.Group.Finset
import QueryPlanner.Proofs.Comparison
import QueryPlanner.Proofs.Loops
import QueryPlanner.Proofs.Memo.Consistency
import QueryPlanner.Proofs.Search.Pricing

namespace QueryPlanner

open Quantity

variable {ν : Type} [Quantity ν]

namespace Search

/-! ## Passes as rounds of a loop -/

/-- A pass over the members of some groups. Where it changes nothing, it is the last one. -/
def relaxation (planner : Planner ν) (groups : List GroupId) : Step ν (Option Unit) := do
  if ← relaxGroups planner groups then pure none else pure (some ())

/-- Settling is repeating passes. -/
theorem settle_eq_repeatUpTo (planner : Planner ν) (groups : List GroupId) (fuel : Nat) :
    settle planner groups fuel =
      repeatUpTo (relaxation planner groups) (throw .unsettledCosts) fuel := by
  induction fuel with
  | zero => rfl
  | succ fuel ih =>
      unfold settle repeatUpTo relaxation
      rw [ih, bind_assoc]
      congr 1
      funext changed
      cases changed with
      | false => rfl
      | true => rfl

end Search

namespace Memo

variable [RankedQuantity ν] {memo : Memo ν}

/-- How often a winner can still be improved on: once for each pair of a rank and one of `n` members
that is less than its own. -/
def scope (n : Nat) : Option (Winner ν) → Nat
  | none => UInt64.size * (n + 1)
  | some w => RankedQuantity.rank w.cost * (n + 1) + min w.member n

theorem scope_le (n : Nat) (w : Option (Winner ν)) : scope n w ≤ UInt64.size * (n + 1) := by
  cases w with
  | none => exact Nat.le_refl _
  | some w =>
      calc RankedQuantity.rank w.cost * (n + 1) + min w.member n
          ≤ RankedQuantity.rank w.cost * (n + 1) + (n + 1) :=
            Nat.add_le_add_left ((Nat.min_le_right _ _).trans (Nat.le_succ n)) _
        _ = (RankedQuantity.rank w.cost + 1) * (n + 1) := (Nat.succ_mul _ _).symm
        _ ≤ UInt64.size * (n + 1) := Nat.mul_le_mul_right _ (RankedQuantity.rank_lt w.cost)

/-- What improves on a winner leaves less scope. -/
theorem scope_lt_of_improves {m : MemberId} {n : Nat} (hm : m < n) {x : ν} {w : Option (Winner ν)}
    (h : Search.improves m x w = true) : scope n (some ⟨m, x⟩) < scope n w := by
  have hbelow : ∀ k, RankedQuantity.rank x < k → scope n (some ⟨m, x⟩) < k * (n + 1) := by
    intro k hk
    calc scope n (some ⟨m, x⟩)
        = RankedQuantity.rank x * (n + 1) + min m n := rfl
      _ < RankedQuantity.rank x * (n + 1) + (n + 1) :=
          Nat.add_lt_add_left (Nat.lt_succ_of_le (Nat.min_le_right _ _)) _
      _ = (RankedQuantity.rank x + 1) * (n + 1) := (Nat.succ_mul _ _).symm
      _ ≤ k * (n + 1) := Nat.mul_le_mul_right _ hk
  cases w with
  | none => exact hbelow _ (RankedQuantity.rank_lt x)
  | some w =>
      rcases Bool.or_eq_true_iff.mp h with hlt | htie
      · exact Nat.lt_of_lt_of_le (hbelow _ (RankedQuantity.rank_lt_rank hlt)) (Nat.le_add_right _ _)
      · -- the same rank, but an older member
        obtain ⟨hsame, holder⟩ := Bool.and_eq_true_iff.mp htie
        have hmember : m < w.member := of_decide_eq_true holder
        unfold scope
        dsimp only
        rw [RankedQuantity.rank_eq_rank hsame, Nat.min_eq_left (Nat.le_of_lt hm)]
        exact Nat.add_lt_add_left (Nat.lt_min.mpr ⟨hmember, hm⟩) _

/-- How much there is left to improve: the scope of the winners that members compete with. -/
def potential (memo : Memo ν) : Nat :=
  ∑ m ∈ Finset.range memo.members.size,
    scope memo.members.size (memo.winner (memo.member m).group (memo.member m).convention)

/-- There is less to improve than passes are allowed for. -/
theorem potential_lt_settleFuel (memo : Memo ν) : memo.potential < Search.settleFuel memo := by
  have hsum : memo.potential ≤ memo.members.size * (UInt64.size * (memo.members.size + 1)) :=
    calc memo.potential
        ≤ ∑ _m ∈ Finset.range memo.members.size, UInt64.size * (memo.members.size + 1) :=
          Finset.sum_le_sum fun _ _ => scope_le _ _
      _ = (Finset.range memo.members.size).card * (UInt64.size * (memo.members.size + 1)) :=
          Finset.sum_const_nat fun _ _ => rfl
      _ = memo.members.size * (UInt64.size * (memo.members.size + 1)) := by rw [Finset.card_range]
  refine Nat.lt_of_le_of_lt hsum ?_
  unfold Search.settleFuel memberCount
  rw [Nat.mul_left_comm]
  refine Nat.mul_lt_mul_of_pos_left ?_ (by decide)
  exact Nat.mul_lt_mul_of_pos_right (Nat.lt_succ_self _) (Nat.succ_pos _)

/-- A member that improves on the winner of its group leaves less to improve when it takes its
place. -/
theorem potential_crown_lt (h : memo.Settled) {g : GroupId} {m : MemberId}
    (hm : m ∈ (memo.group g).members) {x : ν}
    (hi : Search.improves m x (memo.winner g (memo.member m).convention) = true) :
    (Search.crown memo g (memo.member m).convention ⟨m, x⟩).potential < memo.potential := by
  obtain ⟨hg, hlt, hgroup⟩ := h.mem_group_iff.mp hm
  have hlead := h.led.leader_lt hg
  have hsame := Search.crown_sameUpTo memo g (memo.member m).convention ⟨m, x⟩
  have hwinner := Search.winner_crown hlead (memo.member m).convention ⟨m, x⟩
  unfold potential
  rw [hsame.members]
  refine Finset.sum_lt_sum (fun i _ => ?_) ⟨m, Finset.mem_range.mpr hlt, ?_⟩
  · -- wherever the new winner is found, it improves on the one that was found there
    rw [hsame.member, hwinner]
    split
    · next hfound =>
        rw [winner_congr hfound.1, ← hfound.2]
        exact Nat.le_of_lt (scope_lt_of_improves hlt hi)
    · exact Nat.le_refl _
  · have hown : memo.leader (memo.member m).group = memo.leader g := by
      rw [hgroup, h.led.leader_leader]
    rw [hsame.member, hwinner, if_pos ⟨hown, rfl⟩, winner_congr hown]
    exact scope_lt_of_improves hlt hi

end Memo

namespace Search

variable [RankedQuantity ν] {planner : Planner ν} {groups : List GroupId} {s t : Search ν}

/-- A pass that changes something leaves less to improve. -/
theorem returns_relaxGroups_descends (hs : s.memo.Settled) {b : Bool}
    (h : Returns (relaxGroups planner groups) s b t) :
    t.memo.Settled ∧ t.memo.potential ≤ s.memo.potential ∧
      (b = true → t.memo.potential < s.memo.potential) := by
  unfold relaxGroups at h
  obtain ⟨changed, u, hloop, hend⟩ := returns_bind.mp h
  obtain ⟨rfl, rfl⟩ := returns_pure.mp hend
  -- one pass is two nested walks; both keep the memo settled and the groups as they are
  have hwalk := returns_forIn_descends (N := fun u : Search ν => u.memo.potential)
    (I := fun u => u.memo.Settled ∧ Memo.SameUpTo Group.withoutWinners u.memo s.memo) ?_
    ⟨hs, Memo.SameUpTo.refl _⟩ hloop
  · exact ⟨hwalk.1.1, hwalk.2.1, fun hb => (hwalk.2.2 hb).resolve_left Bool.false_ne_true⟩
  · intro g _ changed u r v hu h
    obtain ⟨memo, w, hmemo, h⟩ := returns_bind.mp h
    obtain ⟨rfl, rfl⟩ := returns_memoNow.mp hmemo
    obtain ⟨after, x, hinner, h⟩ := returns_bind.mp h
    obtain ⟨rfl, rfl⟩ := returns_pure.mp h
    refine ⟨after, rfl, ?_⟩
    refine returns_forIn_descends (N := fun u : Search ν => u.memo.potential)
      (I := fun u => u.memo.Settled ∧ Memo.SameUpTo Group.withoutWinners u.memo s.memo) ?_ hu hinner
    intro m hm changed y r z hy h
    obtain ⟨b, x, hrelax, hnext⟩ := returns_bind.mp h
    rcases relax_cases hrelax with ⟨rfl, rfl, -⟩ | ⟨rfl, -, cost, costs, -, -, hi, rfl⟩
    · obtain ⟨rfl, rfl⟩ := returns_pure.mp hnext
      exact ⟨changed, rfl, hy, Nat.le_refl _, Or.inl⟩
    · obtain ⟨rfl, rfl⟩ := returns_pure.mp hnext
      have hlisted : m ∈ (y.memo.group g).members := by
        rw [(hy.2.trans hu.2.symm).members_group g]
        exact hm
      have hcrown := crown_sameUpTo y.memo g (y.memo.member m).convention ⟨m, cost⟩
      have hlt := Memo.potential_crown_lt hy.1 hlisted hi
      exact ⟨true, rfl, ⟨hy.1.of_sameUpTo hcrown fun _ => ⟨rfl, rfl⟩, hcrown.trans hy.2⟩,
        Nat.le_of_lt hlt, fun _ => Or.inr hlt⟩

/-- Passes until nothing changes come to an end, and settling does what they do. -/
theorem exists_loop_settle (planner : Planner ν) (groups : List GroupId) (hs : s.memo.Settled) :
    ∃ r t, Loop (relaxation planner groups) s r t ∧
      (settle planner groups (settleFuel s.memo)).run.run s = (r, t) := by
  rw [settle_eq_repeatUpTo]
  refine exists_loop (I := fun s => s.memo.Settled) (N := fun s : Search ν => s.memo.potential)
    (fun s t hs h => ?_) hs s.memo.potential_lt_settleFuel
  obtain ⟨changed, u, hpass, hnext⟩ := returns_bind.mp h
  obtain ⟨hu, -, hlt⟩ := returns_relaxGroups_descends hs hpass
  cases changed with
  | false => exact nomatch (returns_pure.mp hnext).1
  | true =>
      obtain ⟨-, rfl⟩ := returns_pure.mp hnext
      exact ⟨hu, hlt rfl⟩

end Search

end QueryPlanner
