/-
# The planning service

What a client can ask for: whether the service is up, which conventions and rules it
knows, the best plan for a request, and the rows of a request. A request that names
something unknown is the client's fault, one without a plan cannot be processed, and
whatever fails after a plan was found is the service's fault.
-/
import QueryPlanner.Plan.Encoding
import QueryPlanner.Plan.Execution
import QueryPlanner.Registry.Standard
import QueryPlanner.Request.Resolution
import QueryPlanner.Search.Optimize

namespace QueryPlanner

/-- What the service shares between requests. -/
structure Service where
  registry : Registry Float
  costs : CostModel Float
  budget : Budget

/-- The body of a response. -/
inductive Response.Body where
  | json (value : Json)
  | text (message : String)
  deriving Inhabited

/-- A response. -/
structure Response where
  status : Nat
  body : Response.Body
  deriving Inhabited

namespace Service

/-- Why a request fails: the status to respond with, and the reason in words. -/
abbrev Attempt (α : Type) : Type := Except (Nat × String) α

/-- The service with the standard registry and costs. -/
def standard (budget : Budget) : Except ConfigurationError Service := do
  pure ⟨← Registry.standard, RowWork.standard.model, budget⟩

/-- The response to an attempt. -/
def respond (attempt : Attempt Json) : Response :=
  match attempt with
  | .ok value => ⟨200, .json value⟩
  | .error (status, message) => ⟨status, .text message⟩

/-- Fails with a status, and a reason that starts with the given words. -/
def orFail {ε α : Type} (status : Nat) (words : String) (message : ε → String) :
    Except ε α → Attempt α
  | .ok a => .ok a
  | .error e => .error (status, words ++ message e)

/-! ## What the service knows -/

/-- Whether the service is up. -/
def health : Response := respond (.ok (.object [("status", .text "ok")]))

/-- The registered conventions and conversions. -/
def conventions (service : Service) : Response :=
  let convertlets := service.registry.convertlets.pairs.map fun (source, target) =>
    Json.object [("from", .text source.name), ("to", .text target.name)]
  respond (.ok (.object [("conventions", Json.texts (service.registry.conventions.map Convention.name)),
    ("convertlets", .array convertlets)]))

/-- The name of a kind of rule. -/
def ruleKindName : RuleKind → String
  | .transformation => "transformation"
  | .implementation => "implementation"

/-- The registered rules, in the order they are tried. -/
def rules (service : Service) : Response :=
  let rules := service.registry.rules.map fun r =>
    Json.object [("name", .text r.name), ("rule_type", .text (ruleKindName r.kind))]
  respond (.ok (.object [("rules", .array rules)]))

/-! ## Plans -/

/-- The status for a failed optimization: there is no plan, or the planner broke down. -/
def optimizationStatus : OptimizationError Float → Nat
  | .unsatisfiable .. => 422
  | .budgetExceeded .. => 422
  | _ => 500

/-- The best plan for a request, and how many iterations it took. -/
def plan (service : Service) (request : Request) : Attempt (Plan Float × Nat) := do
  let convention ← orFail 400 "" ConfigurationError.message
    (service.registry.conversions.convention request.convention)
  let (root, memo) := (Request.build request.tables request.plan).run.run {}
  let root ← orFail 400 "Failed to consume plan: " id root
  let planner : Planner Float :=
    ⟨service.registry, service.costs, Request.catalog request.tables, service.budget⟩
  let (plan, search) :=
    (Search.optimize planner root ⟨convention, request.ceiling⟩).run.run { memo := memo }
  match plan with
  | .ok plan => pure (plan, search.iterations)
  | .error e => throw (optimizationStatus e, "Optimization failed: " ++ e.message)

/-- The code for a plan. -/
def code (service : Service) (plan : Plan Float) : Attempt Executable :=
  orFail 500 "Code generation failed: " CodeError.message (plan.generate service.registry)

/-- The best plan for a request, with its code. -/
def optimize (service : Service) (request : Request) : Response :=
  respond do
    let (plan, iterations) ← service.plan request
    let executable ← service.code plan
    pure (.object [("cost", .float plan.cost), ("truncated", .bool plan.truncated),
      ("iterations", .int iterations), ("explain", .text plan.explain),
      ("program", .text executable.display), ("plan", plan.toJson)])

/-- A value of a result row. -/
def resultValue : Scalar → Json
  | .null => .null
  | .bool b => .bool b
  | .int n => .int n.toInt
  | .float x => .float x.toFloat
  | .text s => .text s
  | .date d => .int d.toInt

/-- The best plan of a request, and what running its code comes to. -/
def run (service : Service) (request : Request) :
    Attempt (Plan Float × Except ExecutionError (List Row)) := do
  let source ← orFail 400 "" id (Request.rowSource request.tables)
  let (plan, _) ← service.plan request
  let executable ← service.code plan
  pure (plan, executable.run source)

/-- The rows of a request, computed by its best plan. There is no response at all if they cannot be
sorted. -/
def execute (service : Service) (request : Request) : Option Response :=
  match service.run request with
  | .error failure => some (respond (.error failure))
  | .ok (_, .error .contradictoryOrder) => none
  | .ok (plan, outcome) => some (respond do
      let rows ← orFail 500 "Execution failed: " ExecutionError.message outcome
      pure (.object [("columns", Json.texts plan.root.rowType.names),
        ("rows", .array (rows.map fun row => .array (row.map resultValue))),
        ("cost", .float plan.cost), ("truncated", .bool plan.truncated)]))

end Service

end QueryPlanner
