/-
# Answers

Whoever asks for rows one after another is answered with rows and errors. An error is the end of
what is made of the rows, unless they are passed on one by one.

* `Answers.all` : all rows, or the first error;
* `Answers.after`, `Answers.forEach` : what follows on an outcome, and on each row;
* `all_eq_ok`, `all_append`, `forEach_forEach` : how these go together;
* `Answers.Are` : answers whose rows are of one kind, and whose errors of another;
* `RowStream.toList_filter_eq`, `toList_project_eq`, `toList_join_eq` : the operators on streams.
-/
import QueryPlanner.Execution.Cursor
import QueryPlanner.Proofs.Running

namespace QueryPlanner

/-- Rows that are asked for one after another, each of which may turn out to be an error. -/
abbrev Answers : Type := List (Except ExecutionError Row)

namespace Answers

variable {α : Type} {as : Answers} {rows : List Row} {e : ExecutionError}

/-- All rows, unless one of them is an error. -/
def all : Answers → Except ExecutionError (List Row)
  | [] => .ok []
  | x :: rest => do
      let row ← x
      let rows ← all rest
      pure (row :: rows)

/-- What follows on an outcome; on an error nothing does but the error. -/
def after (x : Except ExecutionError α) (f : α → Answers) : Answers :=
  match x with
  | .ok a => f a
  | .error e => [.error e]

/-- What follows on each of several rows. -/
def forEach (out : Row → Answers) (as : Answers) : Answers := as.flatMap fun x => after x out

/-- A row, where the outcome of a predicate on it is TRUE. -/
def keep (row : Row) (x : Scalar.Outcome) : Answers :=
  after x fun v => if v.isTrue then [.ok row] else []

/-! ## All rows -/

theorem all_cons (x : Except ExecutionError Row) (rest : Answers) :
    all (x :: rest) = (do
      let row ← x
      let rows ← all rest
      pure (row :: rows)) := rfl

theorem all_map_ok (rows : List Row) : all (rows.map .ok) = .ok rows := by
  induction rows with
  | nil => rfl
  | cons row rest ih =>
      rw [List.map_cons, all_cons, ih]
      rfl

/-- Where there are all rows, there are no errors. -/
theorem all_eq_ok (h : all as = .ok rows) : as = rows.map .ok := by
  induction as generalizing rows with
  | nil =>
      cases h
      rfl
  | cons x rest ih =>
      cases x with
      | error e => cases h
      | ok row =>
          rw [all_cons] at h
          rcases hrest : all rest with e | more
          · rw [hrest] at h
            cases h
          · rw [hrest] at h
            cases h
            rw [List.map_cons, ← ih hrest]

/-- Where there are not, one of the answers is the error. -/
theorem mem_of_all_eq_error (h : all as = .error e) : .error e ∈ as := by
  induction as with
  | nil => cases h
  | cons x rest ih =>
      cases x with
      | error e' =>
          cases h
          exact List.mem_cons_self
      | ok row =>
          rw [all_cons] at h
          rcases hrest : all rest with e' | more
          · rw [hrest] at h
            cases h
            exact List.mem_cons_of_mem _ (ih hrest)
          · rw [hrest] at h
            cases h

theorem all_append (as bs : Answers) :
    all (as ++ bs) = (all as).bind fun rows => (all bs).map (rows ++ ·) := by
  induction as with
  | nil =>
      rw [List.nil_append]
      cases all bs with
      | error e => rfl
      | ok more => rfl
  | cons x rest ih =>
      cases x with
      | error e => rfl
      | ok row =>
          rw [List.cons_append, all_cons, ih, all_cons]
          cases all rest with
          | error e => rfl
          | ok rows =>
              cases all bs with
              | error e => rfl
              | ok more => rfl

/-! ## One after another -/

@[simp]
theorem after_ok (a : α) (f : α → Answers) : after (.ok a) f = f a := rfl

theorem forEach_singleton (out : Row → Answers) (x : Except ExecutionError Row) :
    forEach out [x] = after x out := List.flatMap_singleton ..

theorem forEach_map_ok (out : Row → Answers) (rows : List Row) :
    forEach out (rows.map .ok) = rows.flatMap out := List.flatMap_map ..

/-- What follows on the answers that follow on an outcome follows on the outcome. -/
theorem forEach_after (out : Row → Answers) (f : α → Answers) (x : Except ExecutionError α) :
    forEach out (after x f) = after x fun a => forEach out (f a) := by
  cases x with
  | error e => rfl
  | ok a => rfl

theorem forEach_forEach (f out : Row → Answers) (as : Answers) :
    forEach out (forEach f as) = forEach (fun row => forEach out (f row)) as := by
  unfold forEach
  rw [List.flatMap_assoc]
  exact List.flatMap_congr fun x _ => forEach_after out f x

/-- Rows that are passed on as they are. -/
theorem forEach_ok (as : Answers) : forEach (fun row => [.ok row]) as = as := by
  have hafter : ∀ x : Except ExecutionError Row, after x (fun row => [.ok row]) = [x] := by
    intro x
    cases x with
    | error e => rfl
    | ok row => rfl
  unfold forEach
  rw [List.flatMap_congr fun x _ => hafter x, List.flatMap_singleton']

/-! ## Kinds of answers -/

/-- All rows among answers are of one kind, and all errors of another. -/
structure Are (P : Row → Prop) (E : ExecutionError → Prop) (as : Answers) : Prop where
  row : ∀ row, .ok row ∈ as → P row
  error : ∀ e, .error e ∈ as → E e

variable {P Q : Row → Prop} {E : ExecutionError → Prop}

theorem are_nil : Are P E [] := ⟨nofun, nofun⟩

/-- Rows, or an error in their place. -/
theorem are_after_map {x : Except ExecutionError (List Row)}
    (hrows : ∀ rows, x = .ok rows → ∀ row ∈ rows, P row) (herror : ∀ e, x = .error e → E e) :
    Are P E (after (x.map (List.map .ok)) id) := by
  cases x with
  | error e =>
      refine ⟨nofun, fun e' he' => ?_⟩
      cases List.mem_singleton.mp he'
      exact herror e rfl
  | ok rows =>
      constructor
      · intro row hrow
        obtain ⟨row', hrow', heq⟩ := List.mem_map.mp hrow
        cases heq
        exact hrows rows rfl row hrow'
      · intro e he
        obtain ⟨row', -, heq⟩ := List.mem_map.mp he
        cases heq

theorem are_singleton {x : Except ExecutionError Row} (hrow : ∀ row, x = .ok row → P row)
    (herror : ∀ e, x = .error e → E e) : Are P E [x] where
  row row h := hrow row (List.mem_singleton.mp h).symm
  error e h := herror e (List.mem_singleton.mp h).symm

theorem are_keep {row : Row} {o : Scalar.Outcome} (hrow : P row) (herror : ∀ e, o = .error e → E e) :
    Are P E (keep row o) := by
  cases o with
  | error e =>
      refine are_singleton nofun fun e' he' => ?_
      cases he'
      exact herror e rfl
  | ok v =>
      unfold keep
      rw [after_ok]
      split
      · refine are_singleton (fun row' h => ?_) nofun
        cases h
        exact hrow
      · exact are_nil

/-- What follows on rows of a kind is of the kind that follows on each of them. -/
theorem Are.forEach {out : Row → Answers} (h : as.Are P E)
    (hout : ∀ row, P row → (out row).Are Q E) : Are Q E (forEach out as) := by
  constructor
  · intro row hrow
    obtain ⟨x, hx, hmem⟩ := List.mem_flatMap.mp hrow
    cases x with
    | error e => cases List.mem_singleton.mp hmem
    | ok row' => exact (hout row' (h.row row' hx)).row row hmem
  · intro e he
    obtain ⟨x, hx, hmem⟩ := List.mem_flatMap.mp he
    cases x with
    | error e' =>
        cases List.mem_singleton.mp hmem
        exact h.error e hx
    | ok row' => exact (hout row' (h.row row' hx)).error e hmem

/-- Fewer answers are of the same kind. -/
theorem Are.mono {bs : Answers} (h : as.Are P E) (hsub : ∀ x ∈ bs, x ∈ as) : Are P E bs where
  row row hrow := h.row row (hsub _ hrow)
  error e he := h.error e (hsub _ he)

/-- All rows are of the kind of each, unless there is one of the errors. -/
theorem Are.all (h : as.Are P E) :
    (∃ rows, all as = .ok rows ∧ ∀ row ∈ rows, P row) ∨ ∃ e, all as = .error e ∧ E e := by
  rcases hall : Answers.all as with e | rows
  · exact Or.inr ⟨e, rfl, h.error e (mem_of_all_eq_error hall)⟩
  · refine Or.inl ⟨rows, rfl, fun row hrow => h.row row ?_⟩
    rw [all_eq_ok hall]
    exact List.mem_map_of_mem hrow

end Answers

/-! ## Streams -/

namespace RowStream

open Answers

/-- Rows behind others are all that are left after them. -/
theorem allAfter_eq (acc : List Row) (s : RowStream) :
    allAfter acc s = (Answers.all s.toList).map (acc.reverse ++ ·) := by
  induction s generalizing acc with
  | done =>
      rw [allAfter, toList, Answers.all]
      exact congrArg Except.ok (List.append_nil _).symm
  | next x rest ih =>
      cases x with
      | error e => rfl
      | ok row =>
          rw [allAfter, ih, toList, Answers.all, List.reverse_cons]
          cases Answers.all (rest ()).toList with
          | error e => rfl
          | ok rows => exact congrArg Except.ok (List.append_assoc ..)

theorem toList_filter_eq (p : Expr) (s : RowStream) :
    (s.filter p).toList = forEach (fun row => keep row (p.eval row)) s.toList := by
  rw [toList_filter]
  unfold forEach
  induction s.toList with
  | nil => rfl
  | cons x rest ih =>
      rw [List.filterMap_cons, List.flatMap_cons, ← ih]
      cases x with
      | error e => rfl
      | ok row =>
          unfold filterRow keep
          dsimp only [after_ok]
          cases p.eval row with
          | error e => rfl
          | ok v =>
              by_cases hv : v.isTrue = true
              · simp [hv]
              · simp [hv]

theorem toList_project_eq (exprs : List Expr) (s : RowStream) :
    (s.project exprs).toList = forEach (fun row => [projectRow exprs row]) s.toList := by
  rw [toList_project, List.map_eq_flatMap]
  refine List.flatMap_congr fun x _ => ?_
  cases x with
  | error e => rfl
  | ok row => rfl

theorem toList_join_eq (type : JoinType) (c : Expr) (padding : Nat) (right : List Row)
    (s : RowStream) :
    (s.join type c padding right).toList = forEach (joinRow type c padding right) s.toList := by
  rw [toList_join]
  refine List.flatMap_congr fun x _ => ?_
  cases x with
  | error e => rfl
  | ok left => rfl

end RowStream

/-- All rows of a cursor, unless one of them is an error. -/
theorem Cursor.all_eq (c : Cursor) : c.all = Answers.all c.toList := by
  have hall := RowStream.allAfter_eq [] c.rows.get
  unfold Cursor.all RowStream.all Cursor.toList
  rw [hall]
  cases Answers.all c.rows.get.toList with
  | error e => rfl
  | ok rows => rfl

end QueryPlanner
