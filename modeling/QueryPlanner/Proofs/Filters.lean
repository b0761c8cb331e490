/-
# Filters taken into the operator below

A filter over a filter, and a filter over an inner join, are proposed as one operator with the
conjuncts of both predicates. The predicate above is then looked at on rows that the operator below
would have dropped: a conjunction stops at FALSE, but goes on behind NULL, and it asks for truth
values, which a filter by itself does not. The rows are the same as before just where neither of
these makes a difference, and otherwise there are none.

* `Expr.IsConjoinable` : predicates that can be looked at in one conjunction;
* `Expr.exists_eval_conjunction_iff`, `Expr.holds_conjunction` : the conjunction on one row;
* `Expr.selects_conjunction_iff` : on all rows that the operator below looks at;
* `Rule.replaces_of_mem_propose` : everything that the two rules propose.
-/
import QueryPlanner.Proofs.Flattening
import QueryPlanner.Proofs.Suggestion
import QueryPlanner.Proofs.Execution.Streams

namespace QueryPlanner

/-! ## Truth values -/

/-- A conjunction that has a value is missing or a truth value. -/
theorem Scalar.admits_allOf {missing : Bool} {outcomes : List Outcome} {v : Scalar}
    (h : allOf missing outcomes = .ok v) : DataType.boolean.admits v = true := by
  fun_induction allOf missing outcomes with
  | case1 missing =>
      cases h
      cases missing <;> rfl
  | case2 => cases h
  | case3 =>
      cases h
      rfl
  | case4 missing rest ih => exact ih h
  | case5 missing rest ih => exact ih h
  | case6 => cases h

namespace Expr

variable {row : Row} {a b : Expr} {as : List Expr} {v va : Scalar}

/-- A predicate that has other conjuncts than itself is a conjunction, so that its values are
truth values. -/
theorem conjuncts_eq_or_admits (h : a.eval row = .ok v) :
    a.conjuncts = [a] ∨ DataType.boolean.admits v = true := by
  rcases a.conjuncts_eq_singleton_or with hone | ⟨es, rfl⟩
  · exact .inl hone
  · exact .inr (Scalar.admits_allOf h)

/-- Conjuncts other than TRUE are none at all, or the predicate itself, or those of a predicate with
truth values. -/
theorem filter_conjuncts_eq_or_admits (h : a.eval row = .ok v) :
    a.conjuncts.filter (!Rule.isTrueLiteral ·) = [a] ∨ DataType.boolean.admits v = true := by
  rcases conjuncts_eq_or_admits h with hone | hv
  · rw [hone]
    by_cases ha : Rule.isTrueLiteral a = true
    · have htrue : a = literal (.bool true) := of_decide_eq_true ha
      subst htrue
      cases h
      exact .inr rfl
    · left
      simp [ha]
  · exact .inr hv

/-! ## One row -/

/-- Two predicates that can be looked at in one conjunction on a row, in which some expressions
stand for the first one. Unless one of them has nothing to look at, their conjunction has a value: it
has none where the first one is missing or TRUE and the second one comes to no truth value, and
where the first one comes to none. -/
def IsConjoinable (as : List Expr) (a b : Expr) (row : Row) : Prop :=
  as = [] ∨ b.conjuncts = [] ∨ ∃ v, Scalar.conjunction [a.eval row, b.eval row] = .ok v

/-- A predicate holds where its value is TRUE. -/
theorem holds_iff : a.holds row = true ↔ a.eval row = .ok (.bool true) := by
  unfold holds value
  rcases a.eval row with x | (_ | (_ | _) | _ | _ | _ | _) <;> simp [Except.toOption, Scalar.isTrue]

/-- A conjunction holds where going through its operands comes to TRUE; a single operand is looked at
by itself, which makes no difference here. -/
theorem holds_conjunction_iff {es : List Expr} :
    (conjunction es).holds row = true ↔
      Scalar.conjunction (evalList row es) = .ok (.bool true) := by
  rw [holds_iff]
  by_cases hlen : es.length = 1
  · obtain ⟨e, rfl⟩ := List.length_eq_one_iff.mp hlen
    rw [conjunction, evalList, evalList, Scalar.conjunction]
    rcases e.eval row with x | (_ | (_ | _) | _ | _ | _ | _) <;>
      simp [Scalar.allOf, Scalar.mismatch]
  · rw [eval_conjunction_eq hlen]

/-- Two outcomes in conjunction come to TRUE just if both are TRUE. -/
theorem conjunction_pair_eq_true_iff {x y : Scalar.Outcome} :
    Scalar.conjunction [x, y] = .ok (.bool true) ↔ x = .ok (.bool true) ∧ y = .ok (.bool true) := by
  rcases x with e | (_ | (_ | _) | _ | _ | _ | _) <;>
    rcases y with e' | (_ | (_ | _) | _ | _ | _ | _) <;>
      simp [Scalar.conjunction, Scalar.allOf, Scalar.mismatch]

/-- The conjuncts of two predicates hold together where both predicates do. -/
theorem holds_conjunction_append {bs : List Expr} (ha : Conjoins as a) (hb : Conjoins bs b) :
    (conjunction (as ++ bs)).holds row = (a.holds row && b.holds row) := by
  rw [Bool.eq_iff_iff, Bool.and_eq_true, holds_conjunction_iff, holds_iff, holds_iff,
    conjunction_evalList_append ha hb, conjunction_pair_eq_true_iff]

/-- A predicate that nothing stands for is TRUE, if it comes to a truth value. -/
theorem eq_true_of_conjoins_nil (ha : Conjoins [] a) (hva : a.eval row = .ok va)
    (hbool : DataType.boolean.admits va = true) : va = .bool true := by
  have hnil := ha.allOf row false []
  rw [hva] at hnil
  rcases DataType.boolean_admits_iff.mp hbool with rfl | ⟨_ | _, rfl⟩
  · cases hnil
  · cases hnil
  · rfl

/-- What stands for a predicate has a value where the predicate comes to a truth value. -/
theorem exists_eval_of_conjoins (ha : Conjoins as a) (hva : a.eval row = .ok va)
    (hbool : DataType.boolean.admits va = true) : ∃ v, (conjunction as).eval row = .ok v := by
  have hall := ha.allOf row false []
  rw [List.append_nil, hva] at hall
  rcases DataType.boolean_admits_iff.mp hbool with rfl | ⟨_ | _, rfl⟩ <;>
    exact ⟨_, eval_conjunction hall⟩

/-- Where the predicate below has a value, and the one above has one if that is TRUE, the conjunction
has a value just if the predicates can be looked at in one. -/
theorem exists_eval_conjunction_iff (ha : Conjoins as a) (hva : a.eval row = .ok va)
    (has : as = [a] ∨ DataType.boolean.admits va = true)
    (hb : va.isTrue = true → ∃ vb, b.eval row = .ok vb) :
    (∃ v, (conjunction (as ++ b.conjuncts)).eval row = .ok v) ↔ IsConjoinable as a b row := by
  constructor
  · intro h
    by_cases hnone : as = []
    · exact .inl hnone
    by_cases hempty : b.conjuncts = []
    · exact .inr (.inl hempty)
    · -- there are two conjuncts at least, which are gone through as the predicates are
      have hlen : (as ++ b.conjuncts).length ≠ 1 := by
        have := List.length_pos_iff.mpr hnone
        have := List.length_pos_iff.mpr hempty
        rw [List.length_append]
        omega
      rw [eval_conjunction_eq hlen, conjunction_evalList_append ha (conjoins_conjuncts b)] at h
      exact .inr (.inr h)
  · rintro (rfl | hempty | ⟨v, hv⟩)
    · rw [eq_true_of_conjoins_nil ha hva (has.resolve_left nofun)] at hb
      obtain ⟨vb, hvb⟩ := hb rfl
      exact ⟨vb, eval_conjunction_conjuncts hvb⟩
    · rw [hempty, List.append_nil]
      rcases has with rfl | hbool
      · exact ⟨va, hva⟩
      · exact exists_eval_of_conjoins ha hva hbool
    · exact ⟨v, eval_conjunction_append ha (conjoins_conjuncts b) hv⟩

/-! ## Several rows -/

theorem eval_eq_value (p : Expr) (h : ∃ v, p.eval row = .ok v) : p.eval row = .ok (p.value row) := by
  obtain ⟨v, hv⟩ := h
  rw [value_of_eval hv, hv]

/-- The rows that a predicate keeps of those that it looks at, if it has a value on all of them. -/
structure Selects (p : Expr) (met rows : List Row) : Prop where
  eval : ∀ row ∈ met, ∃ v, p.eval row = .ok v
  rows_eq : rows = met.filter p.holds

/-- What one predicate keeps of what another one keeps is what their conjunction keeps, as far as
they can be looked at in one; otherwise that keeps nothing. -/
theorem selects_conjunction_iff {met kept rows out : List Row} (ha : Conjoins as a)
    (has : ∀ row v, a.eval row = .ok v → as = [a] ∨ DataType.boolean.admits v = true)
    (hlower : a.Selects met kept) (hupper : b.Selects kept rows) :
    (conjunction (as ++ b.conjuncts)).Selects met out ↔
      (∀ row ∈ met, IsConjoinable as a b row) ∧ out = rows := by
  have hrows : rows = met.filter (conjunction (as ++ b.conjuncts)).holds := by
    rw [hupper.rows_eq, hlower.rows_eq, List.filter_filter]
    refine List.filter_congr fun row _ => ?_
    rw [holds_conjunction_append ha (conjoins_conjuncts b), Bool.and_comm]
  have heval : ∀ row ∈ met, (∃ v, (conjunction (as ++ b.conjuncts)).eval row = .ok v) ↔
      IsConjoinable as a b row := by
    intro row hrow
    obtain ⟨va, hva⟩ := hlower.eval row hrow
    refine exists_eval_conjunction_iff ha hva (has row va hva) fun htrue => hupper.eval row ?_
    rw [hlower.rows_eq, List.mem_filter, holds, value_of_eval hva]
    exact ⟨hrow, htrue⟩
  constructor
  · intro h
    exact ⟨fun row hrow => (heval row hrow).mp (h.eval row hrow), h.rows_eq.trans hrows.symm⟩
  · rintro ⟨hall, rfl⟩
    exact ⟨fun row hrow => (heval row hrow).mpr (hall row hrow), hrows⟩

end Expr

namespace Answers

variable {p c : Expr} {rows : List Row}

/-- All rows that a filter keeps. -/
theorem all_forEach_keep_iff {met : List Row} :
    all (forEach (fun row => keep row (p.eval row)) (met.map .ok)) = .ok rows ↔
      p.Selects met rows := by
  constructor
  · intro h
    have heval : ∀ row ∈ met, ∃ v, p.eval row = .ok v := by
      intro row hrow
      rcases hv : p.eval row with e | v
      · -- the error would be among the answers
        have hmem : .error e ∈ forEach (fun row => keep row (p.eval row)) (met.map .ok) := by
          rw [forEach_map_ok, List.mem_flatMap]
          refine ⟨row, hrow, ?_⟩
          rw [hv]
          exact List.mem_singleton_self _
        rw [all_eq_ok h] at hmem
        obtain ⟨_, -, heq⟩ := List.mem_map.mp hmem
        cases heq
      · exact ⟨v, rfl⟩
    refine ⟨heval, ?_⟩
    rw [forEach_keep fun row hrow => p.eval_eq_value (heval row hrow), all_map_ok] at h
    cases h
    rfl
  · rintro ⟨heval, rfl⟩
    rw [forEach_keep fun row hrow => p.eval_eq_value (heval row hrow), all_map_ok]

/-- Whatever follows on rows, it goes on behind no error. -/
theorem exists_of_all_forEach {out : Row → Answers} {as : Answers}
    (h : all (forEach out as) = .ok rows) : ∃ met, as = List.map .ok met := by
  rcases hall : all as with e | met
  · have hmem : .error e ∈ forEach out as :=
      List.mem_flatMap.mpr ⟨_, mem_of_all_eq_error hall, List.mem_singleton_self _⟩
    rw [all_eq_ok h] at hmem
    obtain ⟨_, -, heq⟩ := List.mem_map.mp hmem
    cases heq
  · exact ⟨met, all_eq_ok hall⟩

theorem forEach_append (out : Row → Answers) (as bs : Answers) :
    forEach out (as ++ bs) = forEach out as ++ forEach out bs :=
  List.flatMap_append

/-- The matches of a left row are the pairs with it that a filter on the condition keeps. -/
theorem matchesAfter_eq_all (left : Row) (acc right : List Row) :
    RowStream.matchesAfter c left acc right =
      (all (forEach (fun row => keep row (c.eval row)) ((right.map (left ++ ·)).map .ok))).map
        (acc.reverse ++ ·) := by
  induction right generalizing acc with
  | nil => simp [RowStream.matchesAfter, forEach, all, Except.map]
  | cons row rest ih =>
      rw [RowStream.matchesAfter, List.map_cons, List.map_cons, forEach, List.flatMap_cons, after_ok,
        ← forEach, all_append]
      rcases c.eval (left ++ row) with e | v
      · rfl
      · refine (ih _).trans ?_
        rw [keep, after_ok]
        rcases all (forEach (fun row => keep row (c.eval row)) ((rest.map (left ++ ·)).map .ok)) with
          e | rows
        · cases v.isTrue <;> rfl
        · cases v.isTrue <;> simp [all, Except.map, Except.bind, bind, pure, Except.pure]

/-- An inner join keeps what a filter on its condition keeps of all pairs. -/
theorem all_forEach_joinRow (padding : Nat) (ls rs : List Row) :
    all (forEach (RowStream.joinRow .inner c padding rs) (ls.map .ok)) =
      all (forEach (fun row => keep row (c.eval row))
        ((ls.flatMap fun left => rs.map (left ++ ·)).map .ok)) := by
  induction ls with
  | nil => rfl
  | cons left rest ih =>
      rw [List.flatMap_cons, List.map_append, forEach_append, all_append, List.map_cons,
        forEach, List.flatMap_cons, ← forEach, all_append, ih, after_ok]
      -- the matches of the left row are all its answers, or there is an error in their place
      have hmatches := matchesAfter_eq_all (c := c) left [] rs
      rcases hall : all (forEach (fun row => keep row (c.eval row))
        ((rs.map (left ++ ·)).map .ok)) with e | rows
      · rw [hall] at hmatches
        unfold RowStream.joinRow
        rw [hmatches]
        rfl
      · rw [hall] at hmatches
        unfold RowStream.joinRow
        rw [hmatches]
        simp [Except.map, all_map_ok]

end Answers

/-! ## Pipelines -/

namespace Pipeline

open Answers

variable {source : RowSource} {p c : Expr} {rows : List Row}

theorem run_values_eq (met : List Row) :
    (Executable.pipeline (.values met)).run source = .ok met := by
  rw [run_pipeline, answers_values]
  exact all_map_ok met

theorem run_filter_iff {input : Pipeline} :
    (Executable.pipeline (input.filter p)).run source = .ok rows ↔
      ∃ met, (Executable.pipeline input).run source = .ok met ∧ p.Selects met rows := by
  rw [run_pipeline, run_pipeline, answers_filter]
  rcases input.answers source with e | as
  · constructor
    · intro h
      cases h
    · rintro ⟨met, h, -⟩
      cases h
  · show all (forEach _ as) = .ok rows ↔ ∃ met, all as = .ok met ∧ _
    constructor
    · intro h
      obtain ⟨met, rfl⟩ := exists_of_all_forEach h
      exact ⟨met, all_map_ok met, all_forEach_keep_iff.mp h⟩
    · rintro ⟨met, hmet, h⟩
      rw [all_eq_ok hmet]
      exact all_forEach_keep_iff.mpr h

theorem run_join_iff {ls rs : List Row} {padding : Nat} :
    (Executable.pipeline (.join (.values ls) (.values rs) .inner c padding)).run source = .ok rows ↔
      c.Selects (ls.flatMap fun left => rs.map (left ++ ·)) rows := by
  rw [run_pipeline, answers_join, answers_values, answers_values]
  show (all (rs.map .ok) >>= _) >>= _ = .ok rows ↔ _
  rw [all_map_ok]
  show all (forEach (RowStream.joinRow .inner c padding rs) (ls.map .ok)) = .ok rows ↔ _
  rw [all_forEach_joinRow, all_forEach_keep_iff]

/-- One pipeline in place of another one that has rows: it has the same rows, in the same order, under
a condition, and fails without it. -/
def Replaces (source : RowSource) (original proposed : Pipeline) (condition : Prop) : Prop :=
  ∀ rows, (Executable.pipeline original).run source = .ok rows →
    (condition → (Executable.pipeline proposed).run source = .ok rows) ∧
      (¬ condition → ∃ e, (Executable.pipeline proposed).run source = .error e)

/-- A pipeline that has just these rows, and has them under a condition. -/
theorem replaces_of_iff {original proposed : Pipeline} {condition : Prop}
    (h : ∀ rows, (Executable.pipeline original).run source = .ok rows → ∀ out,
      (Executable.pipeline proposed).run source = .ok out ↔ condition ∧ out = rows) :
    Replaces source original proposed condition := by
  intro rows hrows
  refine ⟨fun hcondition => (h rows hrows rows).mpr ⟨hcondition, rfl⟩, fun hnot => ?_⟩
  rcases hout : (Executable.pipeline proposed).run source with e | out
  · exact ⟨e, rfl⟩
  · exact absurd ((h rows hrows out).mp hout).1 hnot

/-- A filter on the conjuncts of two predicates in place of a filter over a filter. -/
theorem replaces_filter_filter (source : RowSource) (met : List Row) (inner outer : Expr) :
    Replaces source (((values met).filter inner).filter outer)
      ((values met).filter (.conjunction (inner.conjuncts ++ outer.conjuncts)))
      (∀ row ∈ met, Expr.IsConjoinable inner.conjuncts inner outer row) := by
  refine replaces_of_iff fun rows hrows out => ?_
  obtain ⟨kept, hkept, hupper⟩ := run_filter_iff.mp hrows
  obtain ⟨met', hmet, hlower⟩ := run_filter_iff.mp hkept
  rw [run_values_eq] at hmet
  cases hmet
  rw [run_filter_iff, ← Expr.selects_conjunction_iff (Expr.conjoins_conjuncts inner)
    (fun _ _ => Expr.conjuncts_eq_or_admits) hlower hupper]
  constructor
  · rintro ⟨met', hmet, h⟩
    rw [run_values_eq] at hmet
    cases hmet
    exact h
  · intro h
    exact ⟨met, run_values_eq met, h⟩

/-- An inner join on the conjuncts of its condition and of a predicate in place of a filter over it. -/
theorem replaces_filter_join (source : RowSource) (ls rs : List Row) (padding : Nat)
    (condition predicate : Expr) :
    Replaces source (((values ls).join (values rs) .inner condition padding).filter predicate)
      ((values ls).join (values rs) .inner (.conjunction
        (condition.conjuncts.filter (!Rule.isTrueLiteral ·) ++ predicate.conjuncts)) padding)
      (∀ left ∈ ls, ∀ right ∈ rs, Expr.IsConjoinable
        (condition.conjuncts.filter (!Rule.isTrueLiteral ·)) condition predicate (left ++ right)) := by
  refine replaces_of_iff fun rows hrows out => ?_
  obtain ⟨kept, hkept, hupper⟩ := run_filter_iff.mp hrows
  have hlower := run_join_iff.mp hkept
  rw [run_join_iff, Expr.selects_conjunction_iff (Expr.conjoins_conjuncts condition).filter
    (fun _ _ => Expr.filter_conjuncts_eq_or_admits) hlower hupper]
  simp only [List.mem_flatMap, List.mem_map]
  refine and_congr_left fun _ => ⟨fun h left hleft right hright => ?_, ?_⟩
  · exact h _ ⟨left, hleft, right, hright, rfl⟩
  · rintro h _ ⟨left, hleft, right, hright, rfl⟩
    exact h left hleft right hright

end Pipeline

/-! ## Rules -/

namespace Rule

variable {ν : Type}

/-- Whatever is proposed for a filter over a filter, or over an inner join, has the rows of that filter,
in the same order, if on each row that the operator below looks at both predicates can be looked at in
one conjunction, and fails otherwise. -/
theorem replaces_of_mem_propose (catalog : Catalog ν) (memo : Memo ν) (m : Member)
    (source : RowSource) :
    (∀ p ∈ mergeFilters.propose catalog memo m, ∃ outer inner merged child below,
      m.op = .filter outer ∧ child ∈ m.children ∧ below ∈ logicalMembers memo child ∧
        below.op = .filter inner ∧ p = .substitution (.filter merged) below.children ∧
          ∀ met, Pipeline.Replaces source (((Pipeline.values met).filter inner).filter outer)
            ((Pipeline.values met).filter merged)
            (∀ row ∈ met, Expr.IsConjoinable inner.conjuncts inner outer row)) ∧
    ∀ p ∈ filterIntoJoin.propose catalog memo m, ∃ predicate condition merged child below,
      m.op = .filter predicate ∧ child ∈ m.children ∧ below ∈ logicalMembers memo child ∧
        below.op = .join .inner condition ∧
          p = .substitution (.join .inner merged) below.children ∧
            ∀ ls rs padding, Pipeline.Replaces source
              ((Pipeline.join (.values ls) (.values rs) .inner condition padding).filter predicate)
              (.join (.values ls) (.values rs) .inner merged padding)
              (∀ left ∈ ls, ∀ right ∈ rs, Expr.IsConjoinable
                (condition.conjuncts.filter (!isTrueLiteral ·)) condition predicate
                (left ++ right)) := by
  constructor
  · intro p hp
    obtain ⟨outer, inner, child, below, hop, hchild, hbelow, hinner, rfl⟩ :=
      exists_of_mem_mergeFilters hp
    exact ⟨outer, inner, _, child, below, hop, hchild, hbelow, hinner, rfl,
      fun met => Pipeline.replaces_filter_filter source met inner outer⟩
  · intro p hp
    obtain ⟨predicate, condition, child, below, hop, hchild, hbelow, hcondition, rfl⟩ :=
      exists_of_mem_filterIntoJoin hp
    exact ⟨predicate, condition, _, child, below, hop, hchild, hbelow, hcondition, rfl,
      fun ls rs padding => Pipeline.replaces_filter_join source ls rs padding condition predicate⟩

/-- Whether `x` is positive, in rows of `x` and `y`. -/
def isPositive : Expr := .binary .gt (.col "x" 0) (.literal (.int 0))

/-- Whether the reciprocal of `y` is. -/
def hasPositiveReciprocal : Expr :=
  .binary .gt (.binary .div (.literal (.int 1)) (.col "y" 1)) (.literal (.int 0))

/-- Rows with a positive `x` and, of these, those with a positive reciprocal of `y`. -/
def positivePairs : Memo Float :=
  let t : RowType := ⟨[⟨"x", .int64, true⟩, ⟨"y", .int64, true⟩]⟩
  let scanned := ((Memo.addLogical (.scan ⟨"s", "t"⟩ t) []).run.run (.empty : Memo Float)).2
  let filtered := ((Memo.addLogical (.filter isPositive) [0]).run.run scanned).2
  ((Memo.addLogical (.filter hasPositiveReciprocal) [1]).run.run filtered).2

theorem mem_propose_positivePairs :
    .substitution (.filter (.conjunction [isPositive, hasPositiveReciprocal])) [0] ∈
      mergeFilters.propose {} positivePairs (positivePairs.member 2) := by
  have hop : (positivePairs.member 2).op = .filter hasPositiveReciprocal := rfl
  have hchildren : (positivePairs.member 2).children = [1] := rfl
  have hlisted : 1 ∈ (positivePairs.group 1).members := by decide +kernel
  have hinner : (positivePairs.member 1).op = .filter isPositive := rfl
  exact mem_propose_mergeFilters hop hchildren hlisted hinner rfl

/-- One filter in place of the two makes no difference for a row that the lower one is FALSE on. -/
theorem replaces_of_mem_propose_positivePairs (source : RowSource) :
    (Executable.pipeline ((Pipeline.values [[.int 0, .int 0], [.int 1, .int 1]]).filter
      (.conjunction [isPositive, hasPositiveReciprocal]))).run source = .ok [[.int 1, .int 1]] := by
  obtain ⟨outer, inner, merged, child, below, hop, hchild, hbelow, hinner, hp, hreplaces⟩ :=
    (replaces_of_mem_propose {} positivePairs (positivePairs.member 2) source).1 _
      mem_propose_positivePairs
  have houter : Operator.filter hasPositiveReciprocal = .filter outer := hop
  have hchild : child ∈ [1] := hchild
  cases houter
  cases List.mem_singleton.mp hchild
  have hbelow : below ∈ [positivePairs.member 1] := hbelow
  cases List.mem_singleton.mp hbelow
  have hinner : Operator.filter isPositive = .filter inner := hinner
  cases hinner
  cases hp
  refine (hreplaces [[.int 0, .int 0], [.int 1, .int 1]] [[.int 1, .int 1]] rfl).1 fun row hrow => ?_
  rcases List.mem_pair.mp hrow with rfl | rfl
  · exact .inr (.inr ⟨.bool false, rfl⟩)
  · exact .inr (.inr ⟨.bool true, rfl⟩)

/-- It does for a row whose `x` is missing and whose `y` has no reciprocal: the lower filter drops it,
and the one filter fails on it. -/
theorem not_replaces_missingBelow :
    (positivePairs.member 2).op = .filter hasPositiveReciprocal ∧
      (positivePairs.member 2).children = [1] ∧ (positivePairs.member 1).op = .filter isPositive ∧
        (positivePairs.member 1).children = [0] ∧
    ∃ merged, .substitution (.filter merged) [0] ∈
        mergeFilters.propose {} positivePairs (positivePairs.member 2) ∧
      ∀ source, (Executable.pipeline (((Pipeline.values [[.null, .int 0]]).filter isPositive).filter
          hasPositiveReciprocal)).run source = .ok [] ∧
        (Executable.pipeline ((Pipeline.values [[.null, .int 0]]).filter merged)).run source =
          .error .divisionByZero :=
  ⟨rfl, rfl, rfl, rfl, _, mem_propose_positivePairs, fun _ => ⟨rfl, rfl⟩⟩

end Rule

end QueryPlanner
