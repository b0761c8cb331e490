/-
# Generating code

What generating code can run into, and the supply of variables it draws on. A variable
is handed out once, so no two parts of a program bind the same one by accident.
-/
import QueryPlanner.Code

namespace QueryPlanner

/-- Why no code can be generated. -/
inductive CodeError where
  | missingImplementor (convention : Convention)
  | noConversion (source target : Convention)
  /-- An input is not of the kind that its consumer expects. -/
  | fragmentMismatch (node expected : String)
  /-- An operator has no implementation in a convention. -/
  | unsupported (kind : OperatorKind) (convention : Convention)
  deriving DecidableEq, Inhabited

/-- An error in words. -/
def CodeError.message : CodeError → String
  | missingImplementor c => "no implementor registered for convention " ++ c.name
  | noConversion source target => "no conversion path from " ++ source.name ++ " to " ++ target.name
  | fragmentMismatch node expected => node ++ " expected a " ++ expected ++ " input fragment"
  | unsupported kind c => kind.name ++ " is not implementable in convention " ++ c.name

/-- Generating with a supply of variables; the state is the number of the next one. -/
abbrev Generate (α : Type) : Type := ExceptT CodeError (StateM Nat) α

namespace Generate

/-- A variable that was never handed out before. -/
def fresh : Generate Var := do
  let n ← get
  set (n + 1)
  pure ⟨n⟩

end Generate

end QueryPlanner
