/-
# Patterns

A pattern describes the members of the memo that a rule applies to: their kind of
operator, their convention, and patterns for their inputs. A pattern for an input is
met when any member of the input's group meets it.
-/
import QueryPlanner.Memo

namespace QueryPlanner

/-- The shape of a member and of what it reads. -/
inductive Pattern where
  /-- Every member. -/
  | any
  /-- Members without inputs. -/
  | leaf
  /-- Members of a kind, in a convention, over inputs of given shapes; what is absent is
  not asked for. -/
  | operator (kind : Option OperatorKind) (convention : Option Convention)
      (children : List Pattern)
  deriving Inhabited

namespace Pattern

/-- A logical operator over inputs of given shapes. -/
def logicalOver (kind : OperatorKind) (children : List Pattern) : Pattern :=
  operator (some kind) (some .logical) children

/-- A logical operator over any inputs. -/
def logical (kind : OperatorKind) : Pattern := logicalOver kind (List.replicate kind.arity any)

/-- A filter directly above a logical operator of some kind. -/
def filterOver (kind : OperatorKind) : Pattern := logicalOver .filter [logical kind]

/-- A projection directly above another. -/
def projectOverProject : Pattern := logicalOver .project [logical .project]

mutual

/-- Whether a member has the shape of a pattern. -/
def isMetBy {ν : Type} (memo : Memo ν) : Pattern → Member → Bool
  | any, _ => true
  | leaf, m => m.children.isEmpty
  | operator kind convention children, m =>
      kind.all (fun k => decide (k = m.op.kind)) &&
        convention.all (fun c => decide (c = m.convention)) &&
        areMetBy memo children m.children

/-- Whether there are as many groups as patterns and each has a member that meets its
pattern; any group meets the pattern for everything. -/
def areMetBy {ν : Type} (memo : Memo ν) : List Pattern → List GroupId → Bool
  | [], [] => true
  | any :: ps, _ :: gs => areMetBy memo ps gs
  | p :: ps, g :: gs => (memo.membersOf g).any (isMetBy memo p) && areMetBy memo ps gs
  | _, _ => false

end

end Pattern

end QueryPlanner
