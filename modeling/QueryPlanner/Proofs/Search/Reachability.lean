/-
# The memos that a search can come to

A memo starts out empty, and all that ever happens to it is that members are added to new
groups or to old ones, that conventions are required, that applied rules are marked and
that winners are found. Whatever these keep holds of every memo that a search can come to.

* `Reachable` : the memos made by these operations, in any order and with any arguments;
* `reachable_optimize` : a whole search, with any planner and goal, leads from such memos
  to such memos;
* `Reachable.led` : their leaders lead themselves.
-/
import QueryPlanner.Proofs.Search.Invariants
import QueryPlanner.Proofs.Search.Pricing

namespace QueryPlanner

namespace Search

variable {ν : Type} [Quantity ν]

/-- The memos that a search can come to, whether its operations succeed or fail. -/
inductive Reachable : Memo ν → Prop
  | empty : Reachable .empty
  | add {memo : Memo ν} (h : Reachable memo) (op : Operator) (c : Convention)
      (children : List GroupId) (inputs : List Convention) :
      Reachable ((Memo.add op c children inputs).run.run memo).2
  | addTo {memo : Memo ν} (h : Reachable memo) (g : GroupId) (op : Operator) (c : Convention)
      (children : List GroupId) (inputs : List Convention) (origin : String) :
      Reachable ((Memo.addTo g op c children inputs origin).run.run memo).2
  | require {memo : Memo ν} (h : Reachable memo) (g : GroupId) (c : Convention) :
      Reachable (memo.require g c)
  | markApplied {memo : Memo ν} (h : Reachable memo) (m : MemberId) (hash : UInt64) :
      Reachable (memo.markApplied m hash)
  | findWinners {s : Search ν} (h : Reachable s.memo) (planner : Planner ν) :
      Reachable ((findWinners planner).run.run s).2.memo

/-- In every memo that a search can come to, leaders lead themselves. -/
theorem Reachable.led {memo : Memo ν} (h : Reachable memo) : memo.Led := by
  induction h with
  | empty => exact Memo.led_empty
  | add _ op c children inputs ih => exact Memo.keeps_led_add op c children inputs _ ih
  | addTo _ g op c children inputs origin ih =>
      exact Memo.keeps_led_addTo g op c children inputs origin _ ih
  | require _ g c ih => exact Memo.led_require ih g c
  | markApplied _ m hash ih => exact Memo.led_markApplied ih m hash
  | findWinners _ planner ih => exact (findWinners_sameUpTo planner _).symm.led ih

/-! ## Searches stay there -/

theorem isKeptByEdits_reachable : IsKeptByEdits (Reachable : Memo ν → Prop) where
  add op c children inputs _ h := h.add op c children inputs
  addTo g op c children inputs origin _ h := h.addTo g op c children inputs origin
  require _ g c h := h.require g c
  markApplied _ m hash h := h.markApplied m hash

/-- Everything that a search does leads from such memos to such memos. -/
theorem isKept_reachable (planner : Planner ν) : IsKept planner Reachable where
  led _ h := h.led
  require _ g c h := h.require g c
  findWinners _ h := h.findWinners planner
  fire rule _ _ _ m _ _ s hs _ := isKeptByEdits_reachable.fire planner rule m s hs
  convert _ _ _ _ _ _ h := h.addTo ..

/-- A search leads from memos that it can come to to such memos, also where it fails. -/
theorem reachable_optimize (planner : Planner ν) (root : GroupId) (goal : Goal ν) (s : Search ν)
    (h : Reachable s.memo) : Reachable ((optimize planner root goal).run.run s).2.memo :=
  (isKept_reachable planner).optimize root goal s h

end Search

end QueryPlanner
