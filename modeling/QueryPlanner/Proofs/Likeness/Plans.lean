/-
# Plans that are alike

Running the code that is generated for a plan gives what its operators answer, one over another.
Plans of operators that are alike therefore run alike, with rows that are the same up to the sign of
zeros or with the same error, unless some expression comes to a division that tells its divisors
apart. The search may then answer another query than it was asked: of two operators that are alike
it keeps one.

* `PlanNode.Matches` : plans of operators that are alike and do not tell divisors apart;
* `executes_alike_of_alike` : likeness in operations, expressions, operators and plans.
-/
import QueryPlanner.Proofs.Likeness.Operators
import QueryPlanner.Proofs.Safety

namespace QueryPlanner

open Answers Scalar

variable {ν : Type} {source : RowSource}

/-! ## Plans that are alike -/

namespace PlanNode

/-- Plans of the same form whose operators are alike, in the same conventions, and none of whose
expressions comes to a division that tells its divisors apart. -/
inductive Matches (source : RowSource) : PlanNode ν → PlanNode ν → Prop
  | node {id id' : Nat} {op op' : Operator} {c : Convention} {t : RowType}
      {cost rows cost' rows' : ν} {children children' : List (PlanNode ν)}
      (hop : op.canonical = op'.canonical)
      (hchildren : List.Forall₂ (Matches source) children children')
      (h : ¬ op.TellsApart c op' (deliveries source children) (deliveries source children')) :
      Matches source (.node id op c t cost rows children) (.node id' op' c t cost' rows' children')

mutual

/-- Plans that match hand over answers that are alike. -/
theorem alike_delivery : ∀ n n' : PlanNode ν, Matches source n n' →
    (n.delivery source).Alike (n'.delivery source)
  | .node _ _ _ _ _ _ children, _, .node hop hchildren h =>
      ⟨rfl, Operator.endAlike_answers source _ hop (alike_deliveries children _ hchildren) h⟩

/-- `alike_delivery` for several plans. -/
theorem alike_deliveries : ∀ ns ns' : List (PlanNode ν), List.Forall₂ (Matches source) ns ns' →
    List.Forall₂ Handover.Alike (deliveries source ns) (deliveries source ns')
  | [], _, .nil => .nil
  | n :: rest, _, .cons h hrest => .cons (alike_delivery n _ h) (alike_deliveries rest _ hrest)

end

end PlanNode

/-- Fitting plans that match run alike. -/
theorem Plan.endAlike_run [Quantity ν] {registry : Registry ν} {plan plan' : Plan ν}
    (hregistry : Registry.standard = .ok registry) (h : plan.IsFitting source)
    (h' : plan'.IsFitting source) (hmatches : plan.root.Matches source plan'.root) :
    ∃ executable executable', plan.generate registry = .ok executable ∧
      plan'.generate registry = .ok executable' ∧
      EndAlike (List.Forall₂ (List.Forall₂ Like)) (executable.run source)
        (executable'.run source) := by
  obtain ⟨executable, hgenerate, -, hrun, -⟩ := Plan.run_generate_eq_delivery hregistry h
  obtain ⟨executable', hgenerate', -, hrun', -⟩ := Plan.run_generate_eq_delivery hregistry h'
  refine ⟨executable, executable', hgenerate, hgenerate', ?_⟩
  rw [hrun, hrun']
  exact (PlanNode.alike_delivery _ _ hmatches).all

/-! ## Execution up to likeness -/

/-- Likeness is kept by all that is executed, up to divisions that tell zeros apart: an operation
keeps it exactly if it is no such division, and expressions, operators and plans keep it if they
come to none. -/
theorem executes_alike_of_alike [Quantity ν] {registry : Registry ν}
    (hregistry : Registry.standard = .ok registry) (source : RowSource) :
    (∀ {op : BinaryOp} {l l' r r' : Scalar}, Like l l' → Like r r' →
      (EndAlike Like (binary op l r) (binary op l' r') ↔ Scalar.tellsApart op l r r' = false)) ∧
    (∀ {row row' : Row} {e e' : Expr}, List.Forall₂ Like row row' → e.canonical = e'.canonical →
      e.tellsApart .iterator row row' e' = false → EndAlike Like (e.eval row) (e'.eval row')) ∧
    (∀ {c : Convention} {op op' : Operator} {inputs inputs' : List Handover},
      op.canonical = op'.canonical → List.Forall₂ Handover.Alike inputs inputs' →
        ¬ op.TellsApart c op' inputs inputs' →
          EndAlike AlikeAnswers (op.answers source c inputs) (op'.answers source c inputs')) ∧
    ∀ {plan plan' : Plan ν}, plan.IsFitting source → plan'.IsFitting source →
      plan.root.Matches source plan'.root →
        ∃ executable executable', plan.generate registry = .ok executable ∧
          plan'.generate registry = .ok executable' ∧
          EndAlike (List.Forall₂ (List.Forall₂ Like)) (executable.run source)
            (executable'.run source) := by
  refine ⟨endAlike_binary_iff, fun {row row' e e'} hrow he h => ?_,
    Operator.endAlike_answers source _, Plan.endAlike_run hregistry⟩
  have halike := Expr.endAlike_outcome hrow e e' he h
  rwa [Convention.outcome_iterator] at halike

/-! ## Zeros that are told apart, and zeros that are not -/

/-- `1.0 / divisor > 0.0`. -/
def isQuotientPositive (divisor : Expr) : Expr :=
  .binary .gt (.binary .div (.literal (.float ⟨0x3ff0000000000000⟩)) divisor)
    (.literal (.float .zero))

/-- `x + 2.0`. -/
def columnPlusTwo : Expr :=
  .binary .add (.col "x" 0) (.literal (.float ⟨0x4000000000000000⟩))

/-- One row with a zero, if the quotient of one by two more than it is positive. -/
def positiveZero (zero : Double) : Plan Float where
  root := .node 1 (.filter (isQuotientPositive columnPlusTwo)) .iterator
    ⟨[⟨"x", .float64, true⟩]⟩ 0 0
    [.node 0 (.values ⟨[⟨"x", .float64, true⟩]⟩ [[.float zero]]) .iterator
      ⟨[⟨"x", .float64, true⟩]⟩ 0 0 []]
  truncated := false

theorem isFitting_positiveZero (zero : Double) : (positiveZero zero).IsFitting oneAndFive where
  nodes := by
    show ∀ n ∈ [_, _], _
    simp only [List.forall_mem_cons]
    refine ⟨⟨.pulled nofun, rfl, ⟨?_, trivial⟩, trivial⟩,
      ⟨.pulled nofun, rfl, ⟨nofun, trivial⟩, ?_⟩, nofun⟩
    · show ∀ e ∈ [isQuotientPositive columnPlusTwo], ∀ c ∈ e.columns, c.index < 1
      decide
    · intro row hrow
      rw [List.mem_singleton.mp hrow]
      rfl
  ids := by
    intro n hn m hm hid
    rcases List.mem_pair.mp hn with rfl | rfl <;> rcases List.mem_pair.mp hm with rfl | rfl <;>
      first | rfl | cases hid
  root := by
    show Convention.iterator ≠ .federated
    decide

theorem matches_positiveZero :
    (positiveZero .zero).root.Matches oneAndFive (positiveZero .negativeZero).root := by
  refine .node rfl (.cons (.node (by decide) .nil nofun) .nil) ?_
  rintro ⟨row, row', hpairs, h⟩
  cases List.mem_singleton.mp hpairs
  exact absurd h (by decide +kernel)

/-- Two more than a zero is the same for both zeros, and so are the quotient by it and the row that
is kept for it. -/
theorem executes_alike_of_alike_positiveZero :
    EndAlike Like ((isQuotientPositive columnPlusTwo).eval [.float .zero])
        ((isQuotientPositive columnPlusTwo).eval [.float .negativeZero]) ∧
      ∃ registry executable executable', Registry.standard = .ok registry ∧
        (positiveZero .zero).generate registry = .ok executable ∧
        (positiveZero .negativeZero).generate registry = .ok executable' ∧
        EndAlike (List.Forall₂ (List.Forall₂ Like)) (executable.run oneAndFive)
          (executable'.run oneAndFive) := by
  obtain ⟨-, hexpressions, -, hplans⟩ :=
    executes_alike_of_alike (ν := Float) Registry.standard_eq oneAndFive
  refine ⟨hexpressions (.cons (by decide +kernel) .nil) rfl (by decide +kernel), ?_⟩
  obtain ⟨executable, executable', hgenerate, hgenerate', halike⟩ :=
    hplans (isFitting_positiveZero .zero) (isFitting_positiveZero .negativeZero)
      matches_positiveZero
  exact ⟨_, executable, executable', Registry.standard_eq, hgenerate, hgenerate', halike⟩

/-- `1.0 / 0.0 > 0.0` and `1.0 / -0.0 > 0.0` are alike, and so are filters by them. The first is
TRUE and the second FALSE, so that one filter keeps a row that the other does not. -/
theorem not_executes_alike_isQuotientPositive :
    let p := isQuotientPositive (.literal (.float .zero))
    let p' := isQuotientPositive (.literal (.float .negativeZero))
    (Operator.filter p).canonical = (Operator.filter p').canonical ∧
      ¬ EndAlike Like (p.eval []) (p'.eval []) ∧
      (Operator.filter p).Makes oneAndFive [(⟨[]⟩, [[]])] [[]] ∧
      (Operator.filter p').Makes oneAndFive [(⟨[]⟩, [[]])] [] := by
  have htrue : (isQuotientPositive (.literal (.float .zero))).eval [] = .ok (.bool true) := by
    decide +kernel
  have hfalse : (isQuotientPositive (.literal (.float .negativeZero))).eval [] =
    .ok (.bool false) := by decide +kernel
  have hkept : [[]].filter (isQuotientPositive (.literal (.float .zero))).holds = [[]] := by
    decide +kernel
  have hdropped : [[]].filter (isQuotientPositive (.literal (.float .negativeZero))).holds = [] := by
    decide +kernel
  refine ⟨by decide +kernel, ?_, ?_, ?_⟩
  · rw [htrue, hfalse, EndAlike.ok_iff]
    exact nofun
  · exact hkept ▸ .filter
  · exact hdropped ▸ .filter

end QueryPlanner
