/-
# Registries

All that the planner consults and that never changes while it runs: conventions,
convertlets, rules and implementors. They are collected in a draft, and a draft in
which every convention that occurs was registered can be frozen into a registry:
only then are the conventions noted down by their names, and the conversions by the
conventions where they start.
-/
import QueryPlanner.Convertlet
import QueryPlanner.Implementor
import QueryPlanner.Rule

namespace QueryPlanner

/-- What has been registered so far, each list in registration order. -/
structure Draft (ν : Type) where
  conventions : List Convention := []
  convertlets : Convertlets ν := .empty
  rules : List (Rule ν) := []
  implementors : List (Implementor ν) := []
  deriving Inhabited

/-- What the planner consults. -/
structure Registry (ν : Type) where
  conversions : Conversions
  convertlets : Convertlets ν
  rules : List (Rule ν)
  implementors : List (Implementor ν)
  /-- The conversions are those that a convertlet bridges. -/
  bridged : ∀ hop, hop ∈ conversions ↔ hop ∈ convertlets.pairs

instance {ν : Type} : Inhabited (Registry ν) :=
  ⟨⟨⟨[], [], []⟩, .empty, [], [], fun _ => ⟨nofun, nofun⟩⟩⟩

/-! ## Registering -/

namespace Draft

variable {ν : Type}

/-- Registering one thing after another; what was registered before a failure stays. -/
abbrev Register (ν α : Type) : Type := ExceptT ConfigurationError (StateM (Draft ν)) α

/-- The draft that knows the built-in conventions and nothing else. -/
def builtin : Draft ν := { conventions := Convention.builtin }

/-- Registers a convention, which must have a new name. -/
def addConvention (c : Convention) : Register ν Unit := do
  let draft ← get
  if draft.conventions.contains c then throw (.duplicateConvention c.name)
  set { draft with conventions := draft.conventions ++ [c] }

/-- Registers a convertlet, which must bridge a new pair of different conventions. -/
def addConvertlet (c : Convertlet ν) : Register ν Unit := do
  let draft ← get
  match draft.convertlets.add c with
  | .ok convertlets => set { draft with convertlets }
  | .error e => throw e

/-- Registers a rule, which must have a new name. -/
def addRule (r : Rule ν) : Register ν Unit := do
  let draft ← get
  if draft.rules.any (fun r' => decide (r'.name = r.name)) then throw (.duplicateRule r.name)
  set { draft with rules := draft.rules ++ [r] }

/-- Registers an implementor, which must be the first of its convention. -/
def addImplementor (i : Implementor ν) : Register ν Unit := do
  let draft ← get
  if draft.implementors.any (fun i' => decide (i'.convention = i.convention)) then
    throw (.duplicateImplementor i.convention)
  set { draft with implementors := draft.implementors ++ [i] }

/-- Freezes a draft in which every convention that occurs was registered. -/
def build (draft : Draft ν) : Except ConfigurationError (Registry ν) :=
  match draft.implementors.find? fun i => !draft.conventions.contains i.convention with
  | some i => .error (.unknownConvention i.convention.name)
  | none =>
      match hfreeze : Conversions.freeze draft.conventions draft.convertlets.pairs with
      | .error e => .error e
      | .ok conversions => .ok
          { conversions
            convertlets := draft.convertlets
            rules := draft.rules
            implementors := draft.implementors
            bridged := fun _ => Conversions.mem_freeze hfreeze }

end Draft

/-! ## Consulting -/

namespace Registry

variable {ν : Type}

/-- The registered conventions, in registration order. -/
def conventions (r : Registry ν) : List Convention := r.conversions.conventions

/-- The convertlet from one convention to another. -/
def convertlet? (r : Registry ν) (source target : Convention) : Option (Convertlet ν) :=
  r.convertlets.lookup? source target

/-- The implementor of a convention. -/
def implementor? (r : Registry ν) (c : Convention) : Option (Implementor ν) :=
  r.implementors.find? fun i => decide (i.convention = c)

end Registry

end QueryPlanner
