/-
# Rules

Rules are the only way the search space grows. A rule looks at a member of the memo and
proposes further members for its group; it changes nothing itself.
-/
import QueryPlanner.Catalog
import QueryPlanner.Pattern
import QueryPlanner.Text.Hash

namespace QueryPlanner

/-- An input of a proposed logical operator. -/
inductive Source where
  /-- A group of the memo. -/
  | group (g : GroupId)
  /-- A logical operator that may have to be added first. -/
  | fresh (op : Operator) (children : List Source)
  deriving Inhabited

/-- What a rule proposes for the group of the member it looked at. -/
inductive Proposal where
  /-- A logical operator over groups. -/
  | substitution (op : Operator) (children : List GroupId)
  /-- A logical operator some of whose inputs may be new. -/
  | compound (op : Operator) (children : List Source)
  /-- A physical operator, with the convention it needs of each of its inputs. -/
  | physical (op : Operator) (convention : Convention) (inputs : List (GroupId × Convention))
  deriving Inhabited

/-- A physical operator that needs its own convention of all its inputs. -/
def Proposal.uniform (op : Operator) (convention : Convention) (children : List GroupId) :
    Proposal :=
  .physical op convention (children.map fun g => (g, convention))

/-- What a rule is for. -/
inductive RuleKind where
  /-- From logical operators to logical operators. -/
  | transformation
  /-- From logical operators to physical ones. -/
  | implementation
  deriving DecidableEq, Repr, Inhabited

/-- A rule. It is registered under its name, and members remember it by its hash. -/
structure Rule (ν : Type) where
  name : String
  kind : RuleKind
  /-- The members the rule is applied to. -/
  pattern : Pattern
  /-- What the rule proposes for a member. -/
  propose : Catalog ν → Memo ν → Member → List Proposal
  /-- The fingerprint of the rule, which keeps it from being applied to a member twice. -/
  hash : UInt64 := Text.hash name

end QueryPlanner
