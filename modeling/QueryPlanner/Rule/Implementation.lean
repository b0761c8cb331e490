/-
# Implementation rules

Every operator can be pulled from. Filters, projections and inner joins also run in
generated code, filters and projections over records too, and a foreign table is
scanned where it is.
-/
import QueryPlanner.Rule

namespace QueryPlanner

namespace Rule

variable {ν : Type}

/-- Whether a member scans a table that a foreign source owns. -/
def scansFederated (catalog : Catalog ν) (m : Member) : Bool :=
  match m.op with
  | .scan table _ => catalog.isFederated table
  | _ => false

/-- Proposes to pull from an operator of some kind, foreign tables excepted. -/
def pull (kind : OperatorKind) : Rule ν where
  name := "ImplIterator" ++ kind.name
  kind := .implementation
  pattern := .logical kind
  propose catalog _ m :=
    if scansFederated catalog m then [] else [.uniform m.op .iterator m.children]

/-- Proposes to scan a foreign table where it is. -/
def scanFederated : Rule ν where
  name := "FederatedScan"
  kind := .implementation
  pattern := .logical .scan
  propose catalog _ m := if scansFederated catalog m then [.uniform m.op .federated []] else []

/-- Proposes to run operators of some kind in generated code of some convention. Filters
and projections stay in the convention of their input. An inner join over positional
rows lets its left input drive the loop, and pulls the right one anew for each of its
rows. -/
def generate (name : String) (kind : OperatorKind) (convention : Convention) : Rule ν where
  name := name
  kind := .implementation
  pattern := .logical kind
  propose _ _ m :=
    match m.op, m.children with
    | .filter _, children => [.uniform m.op convention children]
    | .project _ _, children => [.uniform m.op convention children]
    | .join .inner _, [left, right] =>
        if convention = .compiled then
          [.physical m.op .compiled [(left, .compiled), (right, .iterator)]]
        else []
    | _, _ => []

/-- The implementation rules, in the order they are tried. -/
def implementations : List (Rule ν) :=
  [.values, .scan, .filter, .project, .join, .sort, .limit].map pull ++
    [scanFederated,
      generate "ImplCompiledFilter" .filter .compiled,
      generate "ImplCompiledProject" .project .compiled,
      generate "ImplCompiledJoin" .join .compiled,
      generate "ImplRecordFilter" .filter .compiledRecord,
      generate "ImplRecordProject" .project .compiledRecord]

end Rule

end QueryPlanner
