/-
# The search for a plan

A search lets rules and conversions grow the memo until neither adds anything, a budget
runs out, or the plan so far is cheap enough. What it does is spread over the modules
below this one:

* `Search.Expansion` : firing rules and inserting converters;
* `Search.Pricing` : statistics, costs and winners;
* `Search.Optimize` : the loop and the choice of the plan.
-/
import QueryPlanner.Cost
import QueryPlanner.Memo.Insertion
import QueryPlanner.Registry

namespace QueryPlanner

/-- How long a search may go on. -/
structure Budget where
  /-- As many rule firings and converter insertions at most. -/
  iterations : Nat := 1000000
  /-- A search stops at this number of groups. -/
  groups : Nat := 100000
  deriving DecidableEq, Repr, Inhabited

/-- What is wanted of the root group. -/
structure Goal (ν : Type) where
  convention : Convention
  /-- A plan that costs no more than this ends the search. -/
  ceiling : Option ν := none

/-- Everything a search consults and never changes. -/
structure Planner (ν : Type) where
  registry : Registry ν
  costs : CostModel ν
  catalog : Catalog ν
  budget : Budget

/-- The state of a search. -/
structure Search (ν : Type) where
  memo : Memo ν := {}
  /-- Rule firings and converter insertions so far. -/
  iterations : Nat := 0
  /-- Whether a pass was ended by the budget. -/
  cutShort : Bool := false
  /-- The conversions that need not be tried again, by group. -/
  attempted : List (GroupId × Convention × Convention) := []
  deriving Inhabited

namespace Search

variable {ν : Type}

/-- A step of a search that can fail; the state it leaves is known in any case. -/
abbrev Step (ν α : Type) : Type := ExceptT (OptimizationError ν) (StateM (Search ν)) α

/-- Changes the memo of a search. -/
def edit {α : Type} (change : Memo.Edit ν α) : Step ν α :=
  ExceptT.mk fun (s : Search ν) =>
    let (result, memo) := change.run.run s.memo
    (result, { s with memo := memo })

/-- Changes the memo of a search in a way that cannot fail. -/
def modifyMemo (f : Memo ν → Memo ν) : Step ν Unit :=
  modify fun s => { s with memo := f s.memo }

/-- The memo of a search. -/
def memoNow : Step ν (Memo ν) := do pure (← get).memo

/-- Takes one iteration out of the budget, if one is left. -/
def spend (budget : Budget) : Step ν Bool := do
  let s ← get
  if budget.iterations ≤ s.iterations then
    set { s with cutShort := true }
    pure false
  else
    set { s with iterations := s.iterations + 1 }
    pure true

end Search

end QueryPlanner
