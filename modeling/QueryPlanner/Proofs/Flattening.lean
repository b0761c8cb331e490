/-
# Flattened conjunctions

A predicate is flattened by putting the conjuncts that it is taken apart into in one conjunction. Going
through them one by one is going through the operands of the predicate, and of theirs: it stops where
they do, and remembers a missing value when they do. Only the wrapper around a single conjunct, which
asks for a truth value, is lost; where the predicate has a value, that has been asked for already.

* `conjunction_evalList_conjuncts` : going through the conjuncts of a conjunction;
* `eval_conjunction_conjuncts` : the value of a flattened predicate;
* `flattening_keeps_values` : values are kept, and mostly errors, and flattening twice is flattening.
-/
import QueryPlanner.Proofs.Conjuncts
import QueryPlanner.Proofs.Rewriting

namespace QueryPlanner

namespace Expr

variable {row : Row} {e : Expr} {v : Scalar}

/-- Several expressions in conjunction are gone through one after the other. -/
theorem eval_conjunction_eq {es : List Expr} (h : es.length ≠ 1) :
    (conjunction es).eval row = Scalar.conjunction (evalList row es) := by
  match es with
  | [] => rfl
  | [e] => exact absurd rfl h
  | e :: e' :: es => rfl

/-- What cannot be taken apart is its only conjunct. -/
theorem conjuncts_eq_singleton_or (e : Expr) : e.conjuncts = [e] ∨ ∃ es, e = and es := by
  cases e with
  | and es => exact .inr ⟨es, rfl⟩
  | column | literal | binary | unary | call | or => exact .inl rfl

/-- Going through all conjuncts of a conjunction comes to what the conjunction comes to. -/
theorem conjunction_evalList_conjuncts (es : List Expr) (row : Row) :
    Scalar.conjunction (evalList row (and es).conjuncts) = (and es).eval row := by
  have hall := allOf_conjunctsOfList (conjoins_conjunctsOfList es) row false []
  rw [List.append_nil, List.append_nil] at hall
  exact hall

/-- A flattened predicate has the value of the predicate. -/
theorem eval_conjunction_conjuncts (h : e.eval row = .ok v) :
    (conjunction e.conjuncts).eval row = .ok v := by
  rcases e.conjuncts_eq_singleton_or with hone | ⟨es, rfl⟩
  · rw [hone]
    exact h
  · rw [← conjunction_evalList_conjuncts] at h
    exact eval_conjunction h

/-- A flattened predicate comes to what the predicate comes to, an error or a value, unless it has
only one conjunct. -/
theorem eval_conjunction_conjuncts_eq (h : e.conjuncts.length ≠ 1) (row : Row) :
    (conjunction e.conjuncts).eval row = e.eval row := by
  rcases e.conjuncts_eq_singleton_or with hone | ⟨es, rfl⟩
  · rw [hone] at h
    exact absurd rfl h
  · rw [eval_conjunction_eq h, conjunction_evalList_conjuncts]

/-- A flattened predicate is flat: TRUE if there are no conjuncts, and otherwise a conjunction of what
cannot be taken apart. -/
theorem conjunction_conjuncts_conjunction (e : Expr) :
    conjunction (conjunction e.conjuncts).conjuncts = conjunction e.conjuncts := by
  by_cases hnone : e.conjuncts = []
  · rw [hnone]
    rfl
  · rw [conjuncts_conjunction (fun _ hx => conjuncts_of_mem_conjuncts hx) hnone]

/-- Flattening a predicate keeps its value on every row on which it has one, however its conjunctions
are nested, and if it is not left with one conjunct, all its errors too. Flattening it again changes
nothing. -/
theorem flattening_keeps_values (e : Expr) :
    (∀ row v, e.eval row = .ok v → (conjunction e.conjuncts).eval row = .ok v) ∧
    (e.conjuncts.length ≠ 1 → ∀ row, (conjunction e.conjuncts).eval row = e.eval row) ∧
    conjunction (conjunction e.conjuncts).conjuncts = conjunction e.conjuncts :=
  ⟨fun _ _ => eval_conjunction_conjuncts, eval_conjunction_conjuncts_eq,
    conjunction_conjuncts_conjunction e⟩

/-- Nothing, a missing value, and a test of a column, in conjunctions of their own. -/
def nestedTests : Expr :=
  and [and [], and [and [literal .null], and [binary .gt (col "a" 0) (literal (.int 1))]]]

/-- Where the test fails the missing value makes no difference, and where it succeeds it does, before
and after. -/
theorem flattening_keeps_values_nestedTests :
    nestedTests.eval [.int 1] = .ok (.bool false) ∧ nestedTests.eval [.int 2] = .ok .null ∧
      (conjunction nestedTests.conjuncts).eval [.int 1] = .ok (.bool false) ∧
      (conjunction nestedTests.conjuncts).eval [.int 2] = .ok .null := by
  have hkeeps := (flattening_keeps_values nestedTests).1
  have hfalse : nestedTests.eval [.int 1] = .ok (.bool false) := by decide
  have hnull : nestedTests.eval [.int 2] = .ok .null := by decide
  exact ⟨hfalse, hnull, hkeeps _ _ hfalse, hkeeps _ _ hnull⟩

end Expr

end QueryPlanner
