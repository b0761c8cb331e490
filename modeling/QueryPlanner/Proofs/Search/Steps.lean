/-
# Steps of a search

How the elementary steps of a search run, and what they keep: a property of the memo is
kept by a step that changes the memo only by changes which keep it.

* `returns_memoNow`, `returns_modifyMemo`, `returns_edit`, `returns_spend` : what the steps return
  and leave;
* `fails_edit`, `not_fails_spend` : where they fail;
* `keeps_edit`, `keeps_spend` : what they keep.
-/
import QueryPlanner.Search
import QueryPlanner.Proofs.Running

namespace QueryPlanner

namespace Search

variable {ν α : Type} {s t : Search ν}

/-! ## Returning -/

theorem returns_memoNow {memo : Memo ν} :
    Returns (memoNow : Step ν (Memo ν)) s memo t ↔ memo = s.memo ∧ t = s := by
  unfold memoNow
  rw [returns_bind]
  constructor
  · rintro ⟨r, u, hr, hp⟩
    obtain ⟨rfl, rfl⟩ := returns_get.mp hr
    exact returns_pure.mp hp
  · rintro ⟨rfl, rfl⟩
    exact ⟨t, t, returns_get.mpr ⟨rfl, rfl⟩, returns_pure.mpr ⟨rfl, rfl⟩⟩

theorem returns_modifyMemo {f : Memo ν → Memo ν} {u : Unit} :
    Returns (modifyMemo f : Step ν Unit) s u t ↔ t = { s with memo := f s.memo } :=
  returns_modify

/-- A change of the memo returns what it returns there, and leaves the rest of the search. -/
theorem returns_edit {change : Memo.Edit ν α} {a : α} :
    Returns (edit change) s a t ↔
      ∃ memo, Returns change s.memo a memo ∧ t = { s with memo := memo } := by
  unfold Returns
  show ((change.run.run s.memo).1, { s with memo := (change.run.run s.memo).2 }) = _ ↔ _
  rcases change.run.run s.memo with ⟨r, memo⟩
  constructor
  · intro h
    cases h
    exact ⟨memo, rfl, rfl⟩
  · rintro ⟨memo, h, rfl⟩
    cases h
    rfl

/-- An iteration is spent if the budget allows it; else it is noted that it did not. -/
theorem returns_spend {budget : Budget} {b : Bool} (h : Returns (spend budget) s b t) :
    b = false ∧ budget.iterations ≤ s.iterations ∧ t = { s with cutShort := true } ∨
      b = true ∧ s.iterations < budget.iterations ∧ t = { s with iterations := s.iterations + 1 } := by
  unfold spend at h
  obtain ⟨_, _, hget, hrest⟩ := returns_bind.mp h
  obtain ⟨rfl, rfl⟩ := returns_get.mp hget
  split at hrest
  · next hle =>
      cases hrest
      exact Or.inl ⟨rfl, hle, rfl⟩
  · next hlt =>
      cases hrest
      exact Or.inr ⟨rfl, Nat.lt_of_not_le hlt, rfl⟩

/-- Below the budget, an iteration is spent. -/
theorem returns_spend_true {budget : Budget} (h : s.iterations < budget.iterations) :
    Returns (spend budget) s true { s with iterations := s.iterations + 1 } := by
  unfold spend
  refine (returns_get.mpr ⟨rfl, rfl⟩).bind ?_
  rw [if_neg (Nat.not_le_of_lt h)]
  rfl

/-! ## Failing -/

theorem not_fails_memoNow {e : OptimizationError ν} : ¬ Fails (memoNow : Step ν (Memo ν)) s e :=
  fun ⟨_, h⟩ => nomatch h

/-- A change of the memo fails where it fails there. -/
theorem fails_edit {change : Memo.Edit ν α} {e : OptimizationError ν} :
    Fails (edit change) s e ↔ Fails change s.memo e := by
  rw [fails_iff, fails_iff]
  exact Iff.rfl

theorem not_fails_spend {budget : Budget} {e : OptimizationError ν} :
    ¬ Fails (spend budget : Step ν Bool) s e := by
  intro h
  unfold spend at h
  rcases fails_bind.mp h with hget | ⟨_, _, -, u, hrest⟩
  · exact not_fails_get hget
  · split at hrest
    · cases hrest
    · cases hrest

/-! ## Keeping a property of the memo -/

section Keeps

variable {P : Memo ν → Prop}

theorem keeps_memoNow : Keeps (fun s => P s.memo) (memoNow : Step ν (Memo ν)) := fun _ h => h

theorem keeps_modifyMemo {f : Memo ν → Memo ν} (hf : ∀ memo, P memo → P (f memo)) :
    Keeps (fun s => P s.memo) (modifyMemo f : Step ν Unit) := fun s h => hf s.memo h

theorem keeps_edit {change : Memo.Edit ν α} (hc : Keeps P change) :
    Keeps (fun s => P s.memo) (edit change) := fun s h => hc s.memo h

theorem keeps_spend (budget : Budget) :
    Keeps (fun s => P s.memo) (spend budget : Step ν Bool) := by
  refine keeps_get_bind fun s h => ?_
  split
  · exact h
  · exact h

end Keeps

end Search

end QueryPlanner
