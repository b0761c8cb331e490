/-
# Calling conventions and conversions between them

A calling convention names how a physical operator hands its rows to the operator
above it. Neighbours that disagree are bridged by converters, and the registered
conversions form a graph: `Conversions.path` finds a shortest chain through it.
-/
import QueryPlanner.Dictionary

namespace QueryPlanner

/-- How an operator hands over its rows; a bare name to compare. -/
structure Convention where
  name : String
  deriving DecidableEq, Repr, Inhabited

namespace Convention

/-- Logical operators, which nothing can run. -/
def logical : Convention := ⟨"NONE"⟩

/-- The consumer pulls one row after another. -/
def iterator : Convention := ⟨"ITERATOR"⟩

/-- Generated code over rows addressed by position. -/
def compiled : Convention := ⟨"COMPILED"⟩

/-- Generated code over records with named fields. -/
def compiledRecord : Convention := ⟨"COMPILED_RECORD"⟩

/-- Rows that a foreign source still owns. -/
def federated : Convention := ⟨"FEDERATED"⟩

/-- The conventions every planner knows. -/
def builtin : List Convention := [logical, iterator, compiled, compiledRecord, federated]

/-- Whether operators in this convention are logical. -/
def isLogical (c : Convention) : Bool := decide (c = logical)

end Convention

/-- Why something cannot be registered, or what was registered cannot be frozen. -/
inductive ConfigurationError where
  | duplicateConvention (name : String)
  | unknownConvention (name : String)
  | duplicateConvertlet (source target : Convention)
  | identityConvertlet (convention : Convention)
  | duplicateRule (name : String)
  | duplicateImplementor (convention : Convention)
  deriving DecidableEq, Inhabited

/-- An error in words. -/
def ConfigurationError.message : ConfigurationError → String
  | duplicateConvention name => "convention " ++ name ++ " registered twice"
  | unknownConvention name => "convention " ++ name ++ " is referenced but was never registered"
  | duplicateConvertlet source target =>
      "a convertlet from " ++ source.name ++ " to " ++ target.name ++ " is already registered"
  | identityConvertlet c => "a convertlet from " ++ c.name ++ " to itself converts nothing"
  | duplicateRule name => "rule " ++ name ++ " registered twice"
  | duplicateImplementor c => "an implementor for convention " ++ c.name ++ " is already registered"

/-- The registered conventions and the conversions between them, as they are looked up. -/
structure Conversions where
  /-- All conventions, in registration order. -/
  conventions : List Convention
  byName : Dictionary String Convention
  /-- Where the conversions of each convention lead, in registration order. -/
  edges : Dictionary Convention (List Convention)
  deriving Inhabited

namespace Conversions

/-! ## Freezing -/

/-- Where the conversions from one convention lead, in registration order. -/
def outgoing (pairs : List (Convention × Convention)) (source : Convention) : List Convention :=
  (pairs.filter fun pair => decide (pair.1 = source)).map Prod.snd

theorem mem_outgoing {pairs : List (Convention × Convention)} {source target : Convention} :
    target ∈ outgoing pairs source ↔ (source, target) ∈ pairs := by
  unfold outgoing
  rw [List.mem_map]
  constructor
  · rintro ⟨⟨a, b⟩, hpair, rfl⟩
    obtain ⟨hmem, ha⟩ := List.mem_filter.mp hpair
    obtain rfl : a = source := of_decide_eq_true ha
    exact hmem
  · intro hmem
    exact ⟨(source, target), List.mem_filter.mpr ⟨hmem, decide_eq_true rfl⟩, rfl⟩

/-- Adds one more conversion to those of the convention where it starts. -/
def addEdge (edges : Dictionary Convention (List Convention)) (pair : Convention × Convention) :
    Dictionary Convention (List Convention) :=
  edges.insert pair.1 ((edges.get? pair.1).getD [] ++ [pair.2])

/-- Adding conversions puts them behind those that start where they do. -/
theorem getD_get?_foldl_addEdge (pairs : List (Convention × Convention))
    (edges : Dictionary Convention (List Convention)) (source : Convention) :
    ((pairs.foldl addEdge edges).get? source).getD [] =
      (edges.get? source).getD [] ++ outgoing pairs source := by
  induction pairs generalizing edges with
  | nil => exact (List.append_nil _).symm
  | cons pair rest ih =>
      rw [List.foldl_cons, ih, addEdge, Dictionary.get?_insert]
      by_cases hsource : pair.1 = source
      · subst hsource
        simp [outgoing]
      · simp [outgoing, hsource]

/-- Notes conventions down by their names and conversions by where they start. Both ends of every
conversion must be registered. -/
def freeze (conventions : List Convention) (pairs : List (Convention × Convention)) :
    Except ConfigurationError Conversions :=
  match (pairs.flatMap fun pair => [pair.1, pair.2]).find? fun c => !conventions.contains c with
  | some c => .error (.unknownConvention c.name)
  | none => .ok
      { conventions
        byName := conventions.foldl (fun names c => names.insert c.name c) []
        edges := pairs.foldl addEdge [] }

/-! ## Consulting -/

/-- Whether a convention was registered. -/
def contains (conversions : Conversions) (c : Convention) : Bool := conversions.byName.contains c.name

/-- The convention called `name`. -/
def convention (conversions : Conversions) (name : String) : Except ConfigurationError Convention :=
  match conversions.byName.get? name with
  | some c => .ok c
  | none => .error (.unknownConvention name)

/-- The conventions one conversion leads to, in registration order. -/
def successors (conversions : Conversions) (source : Convention) : List Convention :=
  (conversions.edges.get? source).getD []

/-- The conventions one conversion leads to from a registered one. -/
def convertibleTo (conversions : Conversions) (source : Convention) :
    Except ConfigurationError (List Convention) :=
  if conversions.contains source then .ok (conversions.successors source)
  else .error (.unknownConvention source.name)

/-- Whether a single conversion leads from one convention to the other. -/
def converts (conversions : Conversions) (source target : Convention) : Bool :=
  (conversions.edges.get? source).any fun targets => targets.contains target

/-- A pair of conventions is a conversion if it leads from the first one to the second one. -/
instance : Membership (Convention × Convention) Conversions where
  mem conversions hop := hop.2 ∈ conversions.successors hop.1

theorem mem_iff {conversions : Conversions} {hop : Convention × Convention} :
    hop ∈ conversions ↔ hop.2 ∈ conversions.successors hop.1 := Iff.rfl

instance (conversions : Conversions) (hop : Convention × Convention) : Decidable (hop ∈ conversions) :=
  inferInstanceAs (Decidable (hop.2 ∈ conversions.successors hop.1))

/-- A single conversion leads from one convention to the other exactly if the pair is one. -/
theorem converts_iff (conversions : Conversions) (source target : Convention) :
    conversions.converts source target = true ↔ (source, target) ∈ conversions := by
  unfold converts
  rw [mem_iff]
  unfold successors
  cases conversions.edges.get? source with
  | none => simp
  | some targets => simp

section Frozen

variable {conventions : List Convention} {pairs : List (Convention × Convention)}
  {conversions : Conversions}

theorem eq_of_freeze_eq_ok (h : freeze conventions pairs = .ok conversions) :
    conversions =
      { conventions
        byName := conventions.foldl (fun names c => names.insert c.name c) []
        edges := pairs.foldl addEdge [] } := by
  unfold freeze at h
  split at h
  · cases h
  · exact (Except.ok.inj h).symm

/-- From a convention lead the conversions that were given for it, in their order. -/
theorem successors_freeze (h : freeze conventions pairs = .ok conversions) (source : Convention) :
    conversions.successors source = outgoing pairs source := by
  rw [eq_of_freeze_eq_ok h]
  exact getD_get?_foldl_addEdge pairs [] source

/-- The conversions are those that were given. -/
theorem mem_freeze (h : freeze conventions pairs = .ok conversions)
    {hop : Convention × Convention} : hop ∈ conversions ↔ hop ∈ pairs := by
  rw [mem_iff, successors_freeze h, mem_outgoing]

end Frozen

/-! ## Chains -/

/-- All conversions, by where they start. -/
def links (conversions : Conversions) : List (Convention × Convention) :=
  (conversions.edges.map Prod.fst).eraseDups.flatMap fun source =>
    (conversions.successors source).map fun target => (source, target)

/-- A search for a chain: the conventions that wait to be looked at, all that were seen, and for each of
these but the first the convention it was reached from. -/
structure Walk where
  queue : List Convention
  seen : List Convention
  previous : Dictionary Convention Convention

/-- Sees conventions that `current` leads to, and stops at the target. All that are new have to wait. -/
def visit (target current : Convention) : List Convention → Walk → Bool × Walk
  | [], walk => (false, walk)
  | next :: rest, walk =>
      if walk.seen.contains next then visit target current rest walk
      else
        let seen := walk.seen ++ [next]
        let previous := walk.previous.insert next current
        if next = target then (true, { walk with seen, previous })
        else visit target current rest { queue := walk.queue ++ [next], seen, previous }

/-- Looks at one convention after another, until the target is seen. Nothing waits twice, so the number
of conversions bounds the steps. -/
def explore (conversions : Conversions) (target : Convention) : Nat → Walk → Option Walk
  | 0, _ => none
  | fuel + 1, walk =>
      match walk.queue with
      | [] => none
      | current :: queue =>
          let (found, walk) := visit target current (conversions.successors current) { walk with queue }
          if found then some walk else explore conversions target fuel walk

/-- Goes back from a convention to the one it was reached from, as long as there is one, and collects
the way. -/
def trace (previous : Dictionary Convention Convention) :
    Nat → Convention → List Convention → List Convention
  | 0, _, way => way
  | fuel + 1, cursor, way =>
      match previous.get? cursor with
      | some earlier => trace previous fuel earlier (earlier :: way)
      | none => way

/-- A shortest chain of conversions between two different conventions, both included.
Among the shortest it is the first by the registration order of each hop. -/
def path (conversions : Conversions) (source target : Convention) : Option (List Convention) :=
  if source = target then none
  else
    (explore conversions target (conversions.links.length + 1) ⟨[source], [source], []⟩).map
      fun walk => trace walk.previous walk.seen.length target [target]

end Conversions

/-- The neighbouring pairs of a list. -/
def hops : List Convention → List (Convention × Convention)
  | a :: b :: rest => (a, b) :: hops (b :: rest)
  | _ => []

end QueryPlanner
