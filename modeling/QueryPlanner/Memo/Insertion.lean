/-
# Adding members and merging groups

A member that is already there is never added twice. Proposing it for a second group
shows that both groups are the same, and they are merged; members that read them may
then coincide in turn, until no two members of different groups have the same key.

Every operation either succeeds or names what is wrong, and in both cases says which
memo it leaves behind.
-/
import QueryPlanner.Memo

namespace QueryPlanner

namespace Memo

variable {ν : Type}

/-- A change of the memo that can fail; the memo it leaves is known in any case. -/
abbrev Edit (ν α : Type) : Type := ExceptT (OptimizationError ν) (StateM (Memo ν)) α

/-- The row type of an operator over groups, each read in a convention. -/
def deriveRowType (memo : Memo ν) (op : Operator) (children : List GroupId)
    (inputs : List Convention) : Except (OptimizationError ν) RowType :=
  if inputs.length ≠ children.length then
    .error (.invalidExpression ⟨op.kind, children.length, inputs.length⟩)
  else
    (op.deriveRowType (children.map fun g => (memo.group g).rowType)).mapError .invalidExpression

/-- Adds a group without members. -/
def pushGroup (memo : Memo ν) (rowType : RowType) : Memo ν :=
  let g := memo.groups.size
  { memo with
    groups := memo.groups.push ⟨g, [], rowType, [], [], none⟩
    parents := memo.parents.push g }

/-- Adds a member to a group. -/
def pushMember (memo : Memo ν) (g : GroupId) (op : Operator) (convention : Convention)
    (children : List GroupId) (inputs : List Convention) : Memo ν :=
  let m : Member := ⟨memo.members.size, g, op, convention, children, inputs, []⟩
  let memo := memo.modifyGroup g fun group => { group with members := group.members ++ [m.id] }
  { memo with
    members := memo.members.push m
    index := memo.index.insert m.key m.id }

/-- A new group is the leader of itself, and every older one keeps its leader. -/
theorem leader_pushGroup (memo : Memo ν) (t : RowType) (g : GroupId)
    (h : memo.parents.size = memo.groups.size) :
    (memo.pushGroup t).leader g = if g = memo.groups.size then g else memo.leader g := by
  unfold leader pushGroup
  dsimp only
  rw [← h, climb_push]
  by_cases hg : g = memo.parents.size
  · rw [if_pos hg]
    exact climb_of_none (Array.getElem?_eq_none (Nat.le_of_eq hg.symm)) g
  · rw [if_neg hg]

/-- A new member makes one member more. -/
theorem memberCount_pushMember (memo : Memo ν) (g : GroupId) (op : Operator)
    (convention : Convention) (children : List GroupId) (inputs : List Convention) :
    (memo.pushMember g op convention children inputs).memberCount = memo.memberCount + 1 := by
  unfold memberCount pushMember
  rw [Array.size_push]
  rfl

/-! ## Merging -/

/-- Moves everything of the group `victim` to the group `root`. Their winners are
forgotten, since they may have to compete now. -/
def absorb (memo : Memo ν) (root victim : GroupId) : Memo ν :=
  let gone := memo.group victim
  let memo := memo.modifyGroup victim fun g =>
    { g with members := [], required := [], winners := [], statistics := none }
  let memo := memo.modifyGroup root fun g =>
    let g := { g with
      members := g.members ++ gone.members
      winners := []
      statistics := g.statistics.or gone.statistics }
    gone.required.foldl Group.require g
  { memo with
    parents := memo.parents.setIfInBounds victim root
    members := memo.members.map fun m => if m.group = victim then { m with group := root } else m
    merges := memo.merges + 1 }

/-- Makes two groups one, of the smaller number, if their row types agree. -/
def union (a b : GroupId) (origin : String) : Edit ν Unit := do
  let memo ← get
  let (a, b) := (memo.leader a, memo.leader b)
  if a = b then return
  let (root, victim) := (Nat.min a b, Nat.max a b)
  let (expected, actual) := ((memo.group root).rowType, (memo.group victim).rowType)
  if expected ≠ actual then throw (.rowTypeMismatch origin expected actual)
  set (memo.absorb root victim)

/-- Lets every member read the groups that stand for its inputs. -/
def readLeaders (memo : Memo ν) : Memo ν :=
  { memo with members := memo.members.map fun m => { m with children := m.children.map memo.leader } }

/-- Enters members into an index up to the first one whose key a member of another
group has already, and gives the numbers of the two groups. -/
def enter (memo : Memo ν) : List Member → MemberIndex → MemberIndex × Option (GroupId × GroupId)
  | [], index => (index, none)
  | m :: rest, index =>
      match index.get? m.key with
      | none => enter memo rest (index.insert m.key m.id)
      | some first =>
          let owner := (memo.member first).group
          if owner = m.group then enter memo rest index else (index, some (owner, m.group))

/-- Merges groups until no two members of different groups have the same key. Every
round but the last makes one group fewer, so their number is fuel enough. -/
def rebuild (origin : String) : Nat → Edit ν Unit
  | 0 => pure ()
  | fuel + 1 => do
      let memo := (← get).readLeaders
      let (index, conflict) := memo.enter memo.members.toList {}
      set { memo with index := index }
      match conflict with
      | none => pure ()
      | some (a, b) =>
          union a b origin
          rebuild origin fuel

/-- Merges two groups, and all that become the same by it. -/
def merge (a b : GroupId) (origin : String) : Edit ν Unit := do
  union a b origin
  rebuild origin ((← get).groups.size + 1)

/-! ## Adding members -/

/-- Adds a member in a group of its own, unless it is there already, and gives the group
and the member. -/
def add (op : Operator) (convention : Convention) (children : List GroupId)
    (inputs : List Convention) : Edit ν (GroupId × MemberId) := do
  let memo ← get
  let children := children.map memo.leader
  match memo.index.get? (.of op convention children inputs) with
  | some m => pure ((memo.member m).group, m)
  | none =>
      let rowType ← memo.deriveRowType op children inputs
      let g := memo.groups.size
      set ((memo.pushGroup rowType).pushMember g op convention children inputs)
      pure (g, memo.members.size)

/-- Adds a logical member, and gives its group. -/
def addLogical (op : Operator) (children : List GroupId) : Edit ν GroupId := do
  let (g, _) ← add op .logical children (children.map fun _ => .logical)
  pure g

/-- Adds a member to a group. One that another group has already merges the two; a new
one has to have the row type of the group. -/
def addTo (g : GroupId) (op : Operator) (convention : Convention) (children : List GroupId)
    (inputs : List Convention) (origin : String) : Edit ν MemberId := do
  let memo ← get
  let g := memo.leader g
  let children := children.map memo.leader
  match memo.index.get? (.of op convention children inputs) with
  | some m =>
      let owner := (memo.member m).group
      if owner ≠ g then merge owner g origin
      pure m
  | none =>
      let actual ← memo.deriveRowType op children inputs
      let expected := (memo.group g).rowType
      if actual ≠ expected then throw (.rowTypeMismatch origin expected actual)
      set (memo.pushMember g op convention children inputs)
      pure memo.members.size

end Memo

end QueryPlanner
