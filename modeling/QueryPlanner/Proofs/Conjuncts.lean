/-
# Conjuncts

Taking a predicate apart gives conjuncts that cannot be taken apart, and putting these together
again gives a predicate of just these conjuncts.

* `conjuncts_of_mem_conjuncts` : conjuncts have no others;
* `conjuncts_conjunction` : the conjuncts of a conjunction;
* `conjuncts_canonical`, `length_conjuncts_of_canonical_eq` : canonical predicates have canonical
  conjuncts.
-/
import QueryPlanner.Expr

namespace QueryPlanner

namespace Expr

mutual

/-- A conjunct is its own only one. -/
theorem conjuncts_of_mem_conjuncts {x : Expr} : ∀ {e : Expr}, x ∈ e.conjuncts → x.conjuncts = [x]
  | and _, h => conjuncts_of_mem_conjunctsOfList h
  | column _, h | literal _, h | binary .., h | unary .., h | call .., h | or _, h =>
      List.mem_singleton.mp h ▸ rfl

theorem conjuncts_of_mem_conjunctsOfList {x : Expr} : ∀ {es : List Expr},
    x ∈ conjunctsOfList es → x.conjuncts = [x]
  | [], h => absurd h List.not_mem_nil
  | _ :: _, h => (List.mem_append.mp h).elim conjuncts_of_mem_conjuncts
      conjuncts_of_mem_conjunctsOfList

end

/-- What cannot be taken apart is a list of conjuncts itself. -/
theorem conjunctsOfList_eq_self {es : List Expr} (h : ∀ x ∈ es, x.conjuncts = [x]) :
    conjunctsOfList es = es := by
  induction es with
  | nil => rfl
  | cons x rest ih =>
      obtain ⟨hx, hrest⟩ := List.forall_mem_cons.mp h
      rw [conjunctsOfList, hx, ih hrest]
      rfl

/-- The conjunction of some conjuncts has these conjuncts. -/
theorem conjuncts_conjunction {es : List Expr} (h : ∀ x ∈ es, x.conjuncts = [x]) (hne : es ≠ []) :
    (conjunction es).conjuncts = es := by
  rcases es with _ | ⟨x, _ | ⟨y, rest⟩⟩
  · exact absurd rfl hne
  · exact h x (List.mem_singleton_self x)
  · exact conjunctsOfList_eq_self h

mutual

/-- A canonical predicate has canonical conjuncts. -/
theorem conjuncts_canonical : ∀ e : Expr, e.canonical.conjuncts = e.conjuncts.map canonical
  | and es => conjunctsOfList_canonicalList es
  | column _ | literal _ | binary .. | unary .. | call .. | or _ => rfl

theorem conjunctsOfList_canonicalList : ∀ es : List Expr,
    conjunctsOfList (canonicalList es) = (conjunctsOfList es).map canonical
  | [] => rfl
  | e :: es => by
      rw [canonicalList, conjunctsOfList, conjunctsOfList, conjuncts_canonical e,
        conjunctsOfList_canonicalList es, List.map_append]

end

/-- Predicates that are alike have as many conjuncts. -/
theorem length_conjuncts_of_canonical_eq {e e' : Expr} (h : e.canonical = e'.canonical) :
    e.conjuncts.length = e'.conjuncts.length := by
  rw [← List.length_map (f := canonical), ← conjuncts_canonical, h, conjuncts_canonical,
    List.length_map]

end Expr

end QueryPlanner
