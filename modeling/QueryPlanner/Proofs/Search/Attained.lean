/-
# The memos that a search passes through

From a memo of logical members on, a search adds members to groups that exist, whether these are
accepted or not, requires conventions, marks rules as applied, forgets winners, derives statistics and
crowns members at what they cost at the time. Whatever holds at first and is kept by each of these holds
at any time, also where a budget or an error ends the search.

* `Attained` : the memos that a search passes through;
* `Attained.built` : they are built by calls on groups that exist;
* `isKept_attained` : everything that a search does leads from such memos to such memos.
-/
import QueryPlanner.Proofs.Search.Termination

namespace QueryPlanner

open Memo

namespace Search

variable {ν : Type} [Quantity ν]

/-- The memos that a search passes through, from memos of logical members on. -/
inductive Attained (planner : Planner ν) : Memo ν → Prop
  | start {memo : Memo ν} (h : LogicallyBuilt memo) : Attained planner memo
  | addLogical {memo : Memo ν} (h : Attained planner memo) (op : Operator) {children : List GroupId}
      (hlt : ∀ child ∈ children, child < memo.groups.size) :
      Attained planner ((Memo.addLogical op children).run.run memo).2
  | addTo {memo : Memo ν} (h : Attained planner memo) {g : GroupId} (op : Operator) (c : Convention)
      {children : List GroupId} (inputs : List Convention) (origin : String)
      (hg : g < memo.groups.size) (hlt : ∀ child ∈ children, child < memo.groups.size) :
      Attained planner ((Memo.addTo g op c children inputs origin).run.run memo).2
  | require {memo : Memo ν} (h : Attained planner memo) (g : GroupId) (c : Convention) :
      Attained planner (memo.require g c)
  | markApplied {memo : Memo ν} (h : Attained planner memo) (m : MemberId) (hash : UInt64) :
      Attained planner (memo.markApplied m hash)
  | forget {memo : Memo ν} (h : Attained planner memo) (g : GroupId) :
      Attained planner (memo.modifyGroup g Group.withoutWinners)
  | price {memo : Memo ν} (h : Attained planner memo) (g : GroupId) :
      Attained planner (priceGroup planner.catalog memo g)
  | crown {memo : Memo ν} (h : Attained planner memo) (g : GroupId) {m : MemberId} {x : ν}
      {costs : List ν} (hphysical : (memo.member m).isLogical = false)
      (hcost : costOf planner memo (memo.member m) = some (x, costs)) :
      Attained planner (crown memo g (memo.member m).convention ⟨m, x⟩)

variable {planner : Planner ν} {memo : Memo ν}

omit [Quantity ν] in
theorem LogicallyBuilt.built (h : LogicallyBuilt memo) : memo.Built := by
  induction h with
  | empty => exact .empty
  | addLogical _ op hlt ih => exact isKeptByCalls_built.addLogical op ih hlt

/-- All that becomes of a memo comes of calls on groups which exist, and of notes. -/
theorem Attained.built (h : Attained planner memo) : memo.Built := by
  induction h with
  | start h => exact h.built
  | addLogical _ op hlt ih => exact isKeptByCalls_built.addLogical op ih hlt
  | addTo _ op c inputs origin hg hlt ih => exact isKeptByCalls_built.addTo origin ih hg hlt trivial
  | require _ g c ih => exact ih.require g c
  | markApplied _ m hash ih => exact ih.markApplied m hash
  | forget _ g ih => exact ih.modifyGroup g fun _ => rfl
  | price _ g ih =>
      exact keeps_deriveStatistics (fun memo g x h => h.modifyGroup g fun _ => rfl) _ _ g _ ih
  | crown _ g _ _ ih => exact ih.modifyGroup g fun _ => rfl

theorem Attained.settled (h : Attained planner memo) : memo.Settled := h.built.settled.1

theorem isKeptByCalls_attained : IsKeptByCalls (fun _ _ _ => True) (Attained planner) where
  logical _ _ := trivial
  settled h := h.settled
  addLogical op _ h hlt := h.addLogical op hlt
  addTo origin h hg hlt _ := h.addTo _ _ _ origin hg hlt
  require g c h := h.require g c
  markApplied m hash h := h.markApplied m hash

/-- What winners are looked for in is one of these memos, too. -/
theorem Attained.prepare (h : Attained planner memo) (groups : List GroupId) :
    Attained planner (prepare planner.catalog memo groups) := by
  induction groups generalizing memo with
  | nil => exact h
  | cons g rest ih => exact ih ((h.forget g).price g)

/-- Winners are found by crowning members at what they cost. -/
theorem keeps_attained_findWinners (planner : Planner ν) :
    Keeps (fun s => Attained planner s.memo) (findWinners planner) :=
  keeps_findWinners (fun _ g _ _ _ hphysical hcost h => h.crown g hphysical hcost)
    fun _ g h => (h.forget g).price g

/-- Everything that a search does leads from such memos to such memos, if its rules name groups that
exist. -/
theorem isKept_attained
    (hrules : ∀ rule ∈ planner.registry.rules, NamesGroups planner.catalog rule) :
    IsKept planner (Attained planner) := by
  refine isKeptByCalls_attained.isKept ?_ (keeps_attained_findWinners planner) fun _ _ _ => trivial
  intro rule hrule memo hmemo m hm hmet p hp
  refine ⟨hrules rule hrule memo hmemo.built m hm hmet p hp, ?_⟩
  cases p with
  | physical op c inputs => exact fun _ => trivial
  | _ => exact trivial

end Search

end QueryPlanner
