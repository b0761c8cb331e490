/-
# Why searches fail

What a search does to its memo fails when something does not fit, and finding winners fails when
costs do not add up. That there is no plan is said in one place only: after the last look at the
winners, when the goal has none.

* `OptimizationError.IsUnavailable` : an error that says that there is no plan;
* `OptimizationError.IsOfCosts` : an error that says that costs do not add up;
* `OptimizationError.IsOfMembers` : an error that says that a member does not fit;
* `raises_findWinners` : finding winners says nothing else;
* `raises_expand`, `raises_settleGoal` : neither the loop nor the last pass says that there is no plan.
-/
import QueryPlanner.Proofs.Memo.Calls
import QueryPlanner.Search.Optimize

namespace QueryPlanner

variable {ν : Type}

/-- An error that says that there is no plan: that none exists, or that none was found in time. -/
def OptimizationError.IsUnavailable : OptimizationError ν → Prop
  | .unsatisfiable .. | .budgetExceeded .. => True
  | _ => False

/-- An error that says something else. -/
abbrev OptimizationError.IsInternal (e : OptimizationError ν) : Prop := ¬ e.IsUnavailable

/-- An error that says that costs do not add up. -/
def OptimizationError.IsOfCosts : OptimizationError ν → Prop
  | .nonMonotonicCost .. | .unsettledCosts => True
  | _ => False

/-- An error that says that a node came out cheaper than one of its inputs. -/
def OptimizationError.IsNonMonotonic : OptimizationError ν → Prop
  | .nonMonotonicCost .. => True
  | _ => False

/-- An error that says that a member does not fit. -/
def OptimizationError.IsOfMembers : OptimizationError ν → Prop
  | .invalidExpression .. | .rowTypeMismatch .. => True
  | _ => False

theorem OptimizationError.IsOfMembers.isInternal {e : OptimizationError ν} (h : e.IsOfMembers) :
    e.IsInternal := by
  cases e with
  | invalidExpression => exact id
  | rowTypeMismatch => exact id
  | _ => cases h

theorem OptimizationError.IsOfMembers.not_isNonMonotonic {e : OptimizationError ν}
    (h : e.IsOfMembers) : ¬ e.IsNonMonotonic := by
  cases e with
  | nonMonotonicCost => cases h
  | _ => exact id

theorem OptimizationError.IsOfCosts.isInternal {e : OptimizationError ν} (h : e.IsOfCosts) :
    e.IsInternal := by
  cases e with
  | nonMonotonicCost => exact id
  | unsettledCosts => exact id
  | _ => cases h

open OptimizationError

namespace Memo

/-! ## Edits -/

theorem raises_union (a b : GroupId) (origin : String) :
    Raises IsOfMembers (union a b origin : Edit ν Unit) := by
  refine raises_get_bind fun memo => ?_
  dsimp only
  split
  · exact raises_pure _
  · split
    · exact (raises_throw trivial).bind fun _ => raises_set _
    · exact raises_set _

theorem raises_rebuild (origin : String) (fuel : Nat) :
    Raises IsOfMembers (rebuild origin fuel : Edit ν Unit) := by
  induction fuel with
  | zero => exact raises_pure _
  | succ fuel ih =>
      refine raises_get_bind fun memo => ?_
      dsimp only
      refine (raises_set _).bind fun _ => ?_
      split
      · exact raises_pure _
      · exact (raises_union _ _ origin).bind fun _ => ih

theorem raises_deriveRowType (memo : Memo ν) (op : Operator) (children : List GroupId)
    (inputs : List Convention) {e : OptimizationError ν}
    (h : memo.deriveRowType op children inputs = .error e) : e.IsOfMembers := by
  unfold deriveRowType at h
  split at h
  · cases h
    trivial
  · rcases hderive : op.deriveRowType (children.map fun g => (memo.group g).rowType) with mismatch | t
    · rw [hderive] at h
      cases h
      trivial
    · rw [hderive] at h
      cases h

theorem raises_add (op : Operator) (c : Convention) (children : List GroupId)
    (inputs : List Convention) : Raises IsOfMembers (add op c children inputs : Edit ν _) := by
  refine raises_get_bind fun memo => ?_
  dsimp only
  split
  · exact raises_pure _
  · refine (raises_lift fun e he => raises_deriveRowType _ _ _ _ he).bind fun t => ?_
    exact (raises_set _).bind fun _ => raises_pure _

theorem raises_addTo (g : GroupId) (op : Operator) (c : Convention) (children : List GroupId)
    (inputs : List Convention) (origin : String) :
    Raises IsOfMembers (addTo g op c children inputs origin : Edit ν MemberId) := by
  refine raises_get_bind fun memo => ?_
  dsimp only
  split
  · split
    · refine Raises.bind ?_ fun _ => raises_pure _
      exact (raises_union _ _ origin).bind fun _ => raises_get_bind fun _ => raises_rebuild origin _
    · exact raises_pure _
  · refine (raises_lift fun e he => raises_deriveRowType _ _ _ _ he).bind fun t => ?_
    split
    · exact (raises_throw trivial).bind fun _ => (raises_set _).bind fun _ => raises_pure _
    · exact (raises_set _).bind fun _ => raises_pure _

end Memo

namespace Search

open Memo

/-- A change of the memo fails with what it fails with there. -/
theorem raises_edit {α : Type} {change : Memo.Edit ν α} (h : Raises IsOfMembers change) :
    Raises IsOfMembers (edit change) := by
  intro s e t hrun
  refine h s.memo e (change.run.run s.memo).2 ?_
  exact Prod.ext (Prod.mk.inj hrun).1 rfl

theorem raises_memoNow {E : OptimizationError ν → Prop} :
    Raises E (memoNow : Step ν (Memo ν)) := fun _ _ _ h => nomatch h

theorem raises_spend (budget : Budget) : Raises IsOfMembers (spend budget : Step ν Bool) := by
  refine raises_get_bind fun s => ?_
  split
  · exact (raises_set _).bind fun _ => raises_pure _
  · exact (raises_set _).bind fun _ => raises_pure _

/-! ## Rules -/

mutual

theorem raises_materialize : ∀ source : Source,
    Raises IsOfMembers (materialize source : Memo.Edit ν GroupId)
  | .group _ => raises_get_bind fun _ => raises_pure _
  | .fresh op children => by
      unfold materialize
      exact (raises_materializeList children).bind fun _ =>
        (raises_add op .logical _ _).bind fun _ => raises_pure _

theorem raises_materializeList : ∀ sources : List Source,
    Raises IsOfMembers (materializeList sources : Memo.Edit ν (List GroupId))
  | [] => raises_pure _
  | source :: rest => by
      unfold materializeList
      exact (raises_materialize source).bind fun _ =>
        (raises_materializeList rest).bind fun _ => raises_pure _

end

theorem raises_insert (g : GroupId) (rule : String) (p : Proposal) :
    Raises IsOfMembers (insert g rule p : Memo.Edit ν Unit) := by
  cases p with
  | substitution op children => exact (raises_addTo g op _ _ _ rule).bind fun _ => raises_pure _
  | compound op children =>
      exact (raises_materializeList children).bind fun _ =>
        (raises_addTo g op _ _ _ rule).bind fun _ => raises_pure _
  | physical op c inputs =>
      unfold insert
      dsimp only
      split
      · exact raises_pure _
      · exact (raises_modify _).bind fun _ => (raises_addTo g op c _ _ rule).bind fun _ => raises_pure _

variable (planner : Planner ν)

theorem raises_fire (rule : Rule ν) (m : MemberId) : Raises IsOfMembers (fire planner rule m) := by
  refine raises_memoNow.bind fun memo => ?_
  split
  · exact raises_pure _
  · split
    · exact raises_pure _
    · refine (raises_spend _).bind fun goesOn => ?_
      split
      · exact raises_pure _
      · refine (raises_modify _).bind fun _ => ?_
        refine (raises_forIn (fun p _ => ?_) _).bind fun _ => raises_pure _
        exact (raises_edit (raises_insert _ _ p)).bind fun _ => raises_pure _

theorem raises_fireAll : Raises IsOfMembers (fireAll planner) := by
  refine raises_memoNow.bind fun before => ?_
  refine (raises_allM fun g => raises_memoNow.bind fun memo => ?_).bind fun _ =>
    raises_memoNow.bind fun _ => raises_pure _
  exact raises_allM fun m => raises_allM fun rule => raises_fire planner rule m

/-! ## Converters -/

theorem raises_convert (bounded : Bool) (g : GroupId) (source target : Convention) :
    Raises IsOfMembers (convert planner bounded g source target) := by
  have hinsert : ∀ hop, Raises IsOfMembers (insertHop planner bounded g hop) := by
    intro hop
    have hadd : Raises IsOfMembers (do
        let _ ← edit (Memo.addTo g (.converter hop.1) hop.2 [g] [hop.1] converterOrigin)
        return true : Step ν Bool) :=
      (raises_edit (raises_addTo g _ _ _ _ _)).bind fun _ => raises_pure _
    cases bounded with
    | false => exact hadd
    | true =>
        refine (raises_spend _).bind fun goesOn => ?_
        cases goesOn with
        | false => exact raises_pure _
        | true => exact hadd
  refine raises_get_bind fun s => ?_
  split
  · exact raises_pure _
  · split
    · exact (raises_modify _).bind fun _ => raises_pure _
    · refine (raises_allM hinsert).bind fun goesOn => ?_
      split
      · exact raises_pure _
      · exact (raises_modify _).bind fun _ => raises_pure _

theorem raises_convertAll (bounded : Bool) : Raises IsOfMembers (convertAll planner bounded) := by
  refine raises_memoNow.bind fun before => ?_
  refine (raises_allM fun g => raises_memoNow.bind fun memo => ?_).bind fun _ =>
    raises_memoNow.bind fun _ => raises_pure _
  exact raises_allM fun target => raises_allM fun source => raises_convert planner bounded _ source target

/-! ## Winners -/

variable [Quantity ν]

theorem raises_relax (g : GroupId) (m : MemberId) : Raises IsOfCosts (relax planner g m) := by
  refine raises_memoNow.bind fun memo => ?_
  dsimp only
  split
  · exact raises_pure _
  · refine (raises_lift fun e he => ?_).bind fun r => ?_
    · unfold checkedCost at he
      split at he
      · cases he
      · dsimp only at he
        split at he
        · cases he
          trivial
        · cases he
    · cases r with
      | none => exact raises_pure _
      | some x =>
          dsimp only
          split
          · exact (raises_modify _).bind fun _ => raises_pure _
          · exact raises_pure _

theorem raises_relaxGroups (groups : List GroupId) :
    Raises IsOfCosts (relaxGroups planner groups) := by
  refine (raises_forIn (fun g changed => ?_) false).bind fun _ => raises_pure _
  refine raises_memoNow.bind fun memo => ?_
  refine (raises_forIn (fun m changed => ?_) changed).bind fun _ => raises_pure _
  refine (raises_relax planner g m).bind fun b => ?_
  cases b with
  | true => exact raises_pure _
  | false => exact raises_pure _

theorem raises_settle (groups : List GroupId) (fuel : Nat) :
    Raises IsOfCosts (settle planner groups fuel) := by
  induction fuel with
  | zero => exact raises_throw trivial
  | succ fuel ih =>
      refine (raises_relaxGroups planner groups).bind fun b => ?_
      cases b with
      | true => exact ih
      | false => exact raises_pure ()

/-- Finding winners fails only when costs do not add up. -/
theorem raises_findWinners : Raises IsOfCosts (findWinners planner) := by
  refine raises_memoNow.bind fun memo => (raises_modify _).bind fun _ => ?_
  exact raises_memoNow.bind fun _ => raises_settle planner _ _

/-- So does comparing the goal's winner with the ceiling. -/
theorem raises_meetsCeiling (root : GroupId) (goal : Goal ν) :
    Raises IsOfCosts (meetsCeiling planner root goal) := by
  unfold meetsCeiling
  split
  · exact raises_pure _
  · refine (raises_findWinners planner).bind fun _ => raises_memoNow.bind fun memo => ?_
    split
    · exact raises_pure _
    · exact raises_pure _

/-! ## Loops -/

/-- The loop never says that there is no plan. -/
theorem raises_expand (root : GroupId) (goal : Goal ν) (fuel : Nat) :
    Raises IsInternal (expand planner root goal fuel) := by
  have hmeet : Raises IsInternal (meetsCeiling planner root goal) :=
    (raises_meetsCeiling planner root goal).mono fun _ => IsOfCosts.isInternal
  have hfire : Raises IsInternal (fireAll planner) :=
    (raises_fireAll planner).mono fun _ => IsOfMembers.isInternal
  have hconvert : Raises IsInternal (convertAll planner true) :=
    (raises_convertAll planner true).mono fun _ => IsOfMembers.isInternal
  induction fuel with
  | zero => exact raises_pure _
  | succ fuel ih =>
      refine raises_get_bind fun s => ?_
      split
      · exact raises_pure _
      · refine hmeet.bind fun met => ?_
        split
        · exact raises_pure _
        · refine hfire.bind fun fired => hconvert.bind fun converted => ?_
          split
          · exact ih
          · exact raises_pure _

/-- Nor does the last pass. -/
theorem raises_settleGoal (root : GroupId) (goal : Goal ν) :
    Raises IsInternal (settleGoal planner root goal) := by
  have hfind : Raises IsInternal (findWinners planner) :=
    (raises_findWinners planner).mono fun _ => IsOfCosts.isInternal
  refine hfind.bind fun _ => raises_memoNow.bind fun memo => ?_
  split
  · exact raises_pure _
  · refine ((raises_convertAll planner false).mono fun _ => IsOfMembers.isInternal).bind fun _ => ?_
    exact hfind.bind fun _ => raises_memoNow.bind fun _ => raises_pure _

end Search

end QueryPlanner
