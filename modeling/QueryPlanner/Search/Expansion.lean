/-
# Growing the memo

One pass applies every rule to every member it was not applied to yet; another one adds
chains of converters wherever a group has members, but none in a convention that some
consumer needs.
-/
import QueryPlanner.Search

namespace QueryPlanner

namespace Search

variable {ν : Type}

/-! ## Proposals -/

mutual

/-- The group of a proposed input, added to the memo first where it is new. -/
def materialize : Source → Memo.Edit ν GroupId
  | .group g => do pure ((← get).leader g)
  | .fresh op children => do
      let groups ← materializeList children
      Memo.addLogical op groups

/-- The groups of several proposed inputs. -/
def materializeList : List Source → Memo.Edit ν (List GroupId)
  | [] => pure []
  | source :: rest => do
      let g ← materialize source
      let gs ← materializeList rest
      pure (g :: gs)

end

/-- Adds a logical operator to a group. -/
def addLogicalTo (g : GroupId) (op : Operator) (children : List GroupId) (rule : String) :
    Memo.Edit ν Unit := do
  let _ ← Memo.addTo g op .logical children (children.map fun _ => .logical) rule

/-- Adds what a rule proposes to a group. A converter that would convert nothing is left
out, and a physical operator asks its inputs for the conventions it needs. -/
def insert (g : GroupId) (rule : String) : Proposal → Memo.Edit ν Unit
  | .substitution op children => addLogicalTo g op children rule
  | .compound op children => do
      let groups ← materializeList children
      addLogicalTo g op groups rule
  | .physical op convention inputs => do
      if op = .converter convention then return
      modify fun memo => inputs.foldl (fun memo (child, c) => memo.require child c) memo
      let _ ← Memo.addTo g op convention (inputs.map Prod.fst) (inputs.map Prod.snd) rule

/-! ## The rule pass -/

/-- Applies a rule to a member, if it has its shape and was not tried before. The answer
is whether the pass may go on. -/
def fire (planner : Planner ν) (rule : Rule ν) (m : MemberId) : Step ν Bool := do
  let memo ← memoNow
  if memo.wasApplied m rule.hash then return true
  if !rule.pattern.isMetBy memo (memo.member m) then return true
  if !(← spend planner.budget) then return false
  let member := memo.member m
  modifyMemo fun memo => memo.markApplied m rule.hash
  for proposal in rule.propose planner.catalog memo member do
    edit (insert member.group rule.name proposal)
  return true

/-- Applies every rule to every member of a group. -/
def fireGroup (planner : Planner ν) (g : GroupId) : Step ν Bool := do
  let memo ← memoNow
  (memo.group g).members.allM fun m =>
    planner.registry.rules.allM fun rule => fire planner rule m

/-- Applies every rule to every member. The answer is whether the memo changed, or the
budget ended the pass. -/
def fireAll (planner : Planner ν) : Step ν Bool := do
  let before ← memoNow
  let finished ← before.liveGroups.allM (fireGroup planner)
  let after ← memoNow
  pure (!finished || decide (before.memberCount < after.memberCount) ||
    decide (before.merges < after.merges))

/-! ## The conversion pass -/

/-- What a row type mismatch caused by a converter is attributed to. -/
def converterOrigin : String := "converter insertion"

/-- Adds the converter of one hop to a group, if the budget allows it. -/
def insertHop (planner : Planner ν) (bounded : Bool) (g : GroupId)
    (hop : Convention × Convention) : Step ν Bool := do
  if bounded then
    if !(← spend planner.budget) then return false
  let _ ← edit (Memo.addTo g (.converter hop.1) hop.2 [g] [hop.1] converterOrigin)
  return true

/-- Records that a conversion need not be tried again. -/
def markAttempted (g : GroupId) (source target : Convention) : Step ν Unit :=
  modify fun s => { s with attempted := (g, source, target) :: s.attempted }

/-- Adds the chain of converters from one convention to another to a group. It counts as
tried only once all of it is there. -/
def convert (planner : Planner ν) (bounded : Bool) (g : GroupId) (source target : Convention) :
    Step ν Bool := do
  if source = target || (← get).attempted.contains (g, source, target) then return true
  match planner.registry.conversions.path source target with
  | none => markAttempted g source target; return true
  | some path =>
      if !(← (hops path).allM (insertHop planner bounded g)) then return false
      markAttempted g source target
      return true

/-- The conventions a group has physical members in. -/
def presentConventions (memo : Memo ν) (g : GroupId) : List Convention :=
  (((memo.membersOf g).map Member.convention).filter fun c => !c.isLogical).eraseDups

/-- Adds converters to a group, from every convention it has to every one it needs. -/
def convertGroup (planner : Planner ν) (bounded : Bool) (g : GroupId) : Step ν Bool := do
  let memo ← memoNow
  let g := memo.leader g
  let needed := (memo.group g).required.filter fun c => !c.isLogical
  let present := presentConventions memo g
  needed.allM fun target => present.allM fun source => convert planner bounded g source target

/-- Adds converters to every group. The answer is whether any was new, or the budget
ended the pass. -/
def convertAll (planner : Planner ν) (bounded : Bool) : Step ν Bool := do
  let before ← memoNow
  let finished ← before.liveGroups.allM (convertGroup planner bounded)
  let after ← memoNow
  pure (!finished || decide (before.memberCount < after.memberCount))

end Search

end QueryPlanner
