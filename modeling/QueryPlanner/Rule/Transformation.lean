/-
# Transformation rules

* `commuteJoin` : an inner join is a projection of the join with its inputs exchanged;
* `filterIntoJoin` : a filter over an inner join joins the join's condition;
* `mergeFilters` : a filter over a filter is one filter;
* `mergeProjections` : a projection over a projection is one projection;
* `dropProjection` : a projection that changes nothing is its input.
-/
import QueryPlanner.Rule

namespace QueryPlanner

namespace Rule

variable {ν : Type}

/-! ## Commuting joins -/

/-- Where a column of `left ++ right` stands in `right ++ left`. -/
def swapIndex (leftWidth rightWidth i : Nat) : Nat :=
  if i < leftWidth then i + rightWidth else i - leftWidth

/-- The columns of a join with exchanged inputs, in the order they have without the
exchange. -/
def restoreOrder (leftWidth rightWidth : Nat) (output : RowType) : List Expr :=
  output.fields.zipIdx.map fun (f, i) => .col f.name (swapIndex leftWidth rightWidth i)

/-- Proposes the join with its inputs exchanged, under a projection that restores the
order of the columns. -/
def commuteJoin : Rule ν where
  name := "JoinCommutativity"
  kind := .transformation
  pattern := .logical .join
  propose _ memo m :=
    match m.op, m.children with
    | .join .inner condition, [left, right] =>
        let leftWidth := (memo.group left).rowType.width
        let rightWidth := (memo.group right).rowType.width
        let output := (memo.group m.group).rowType
        let swapped := Operator.join .inner (condition.mapColumns (swapIndex leftWidth rightWidth))
        [.compound (.project (restoreOrder leftWidth rightWidth output) output)
          [.fresh swapped [.group right, .group left]]]
    | _, _ => []

/-! ## Filters -/

/-- The logical members of a group. -/
def logicalMembers (memo : Memo ν) (g : GroupId) : List Member :=
  (memo.membersOf g).filter Member.isLogical

/-- Whether a predicate is the literal TRUE. -/
def isTrueLiteral (e : Expr) : Bool := decide (e = .literal (.bool true))

/-- Proposes, for a filter over inner joins, each of these joins with the predicate added
to its condition. -/
def filterIntoJoin : Rule ν where
  name := "FilterIntoJoin"
  kind := .transformation
  pattern := .filterOver .join
  propose _ memo m :=
    match m.op, m.children with
    | .filter predicate, child :: _ =>
        (logicalMembers memo child).filterMap fun below =>
          match below.op with
          | .join .inner condition =>
              let conjuncts := condition.conjuncts.filter (!isTrueLiteral ·) ++ predicate.conjuncts
              some (.substitution (.join .inner (.conjunction conjuncts)) below.children)
          | _ => none
    | _, _ => []

/-- Proposes, for a filter over filters, one filter on both predicates. -/
def mergeFilters : Rule ν where
  name := "MergeFilter"
  kind := .transformation
  pattern := .filterOver .filter
  propose _ memo m :=
    match m.op, m.children with
    | .filter outer, child :: _ =>
        (logicalMembers memo child).filterMap fun below =>
          match below.op with
          | .filter inner =>
              some (.substitution (.filter (.conjunction (inner.conjuncts ++ outer.conjuncts)))
                below.children)
          | _ => none
    | _, _ => []

/-! ## Projections -/

/-- Whether expressions are the columns of a row from the first to the last. -/
def areColumnsFrom (first : Nat) : List Expr → Bool
  | [] => true
  | .column c :: rest => decide (c.index = first) && areColumnsFrom (first + 1) rest
  | _ :: _ => false

/-- Whether a projection lists all columns of its input in order and under its row type. -/
def isTrivial (memo : Memo ν) (exprs : List Expr) (t : RowType) (input : GroupId) : Bool :=
  let inputType := (memo.group input).rowType
  decide (exprs.length = inputType.width) && decide (t = inputType) && areColumnsFrom 0 exprs

/-- The logical members of a group, to be proposed for another one. -/
def alternatives (memo : Memo ν) (g : GroupId) : List Proposal :=
  (logicalMembers memo g).map fun m => .substitution m.op m.children

/-- What merging a projection into the projection `below` gives: the input's own members
where nothing changes, and nothing where a column is out of range. -/
def mergeInto (memo : Memo ν) (outer : List Expr) (t : RowType) (below : Member) :
    List Proposal :=
  match below.op with
  | .project inner _ =>
      match Expr.inlineList inner outer with
      | none => []
      | some merged =>
          let composed := [Proposal.substitution (.project merged t) below.children]
          match below.children with
          | input :: _ => if isTrivial memo merged t input then alternatives memo input else composed
          | [] => composed
  | _ => []

/-- Proposes, for a projection over projections, one projection of the composed
expressions. -/
def mergeProjections : Rule ν where
  name := "MergeProject"
  kind := .transformation
  pattern := .projectOverProject
  propose _ memo m :=
    match m.op, m.children with
    | .project outer t, child :: _ => (logicalMembers memo child).flatMap (mergeInto memo outer t)
    | _, _ => []

/-- Proposes the input's own members for a projection that changes nothing. -/
def dropProjection : Rule ν where
  name := "RemoveTrivialProject"
  kind := .transformation
  pattern := .logical .project
  propose _ memo m :=
    match m.op, m.children with
    | .project exprs t, child :: _ =>
        if isTrivial memo exprs t child then alternatives memo child else []
    | _, _ => []

/-- The transformation rules, in the order they are tried. -/
def transformations : List (Rule ν) :=
  [commuteJoin, filterIntoJoin, mergeFilters, mergeProjections, dropProjection]

end Rule

end QueryPlanner
