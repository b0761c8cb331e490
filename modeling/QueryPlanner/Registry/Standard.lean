/-
# The standard registry

The built-in conventions with the native convertlets and implementors and all rules.
-/
import QueryPlanner.Registry
import QueryPlanner.Rule.Implementation
import QueryPlanner.Rule.Transformation

namespace QueryPlanner

variable {ν : Type} [Quantity ν]

/-- All rules, in the order they are tried: transformations first. -/
def Rule.standard {ν : Type} : List (Rule ν) := Rule.transformations ++ Rule.implementations

namespace Draft

/-- Registers the native convertlets and implementors. -/
def addNative : Register ν Unit := do
  Convertlet.builtin.forM addConvertlet
  Implementor.builtin.forM addImplementor

/-- Registers all rules. -/
def addStandardRules : Register ν Unit := Rule.standard.forM addRule

end Draft

/-- The registry of a planner without extensions. -/
def Registry.standard : Except ConfigurationError (Registry ν) :=
  let register : Draft.Register ν Unit := do
    Draft.addNative
    Draft.addStandardRules
  match register.run.run Draft.builtin with
  | (.ok _, draft) => draft.build
  | (.error e, _) => .error e

end QueryPlanner
