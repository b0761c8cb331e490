/-
# Statements that run

Statements that run in a scope and those around it emit rows, until one of them fails, and change
nothing but the scope they run in. What they emit does not depend on what was emitted before.

* `Gives` : the outcome of code in some scopes, which changes nothing;
* `HandsOut` : a step that emits rows, and leaves given scopes unless it fails;
* `Emits` : statements that do so, with one lemma for each kind of statement;
* `emits_loop` : a loop over a cursor runs its body on every row that is left.
-/
import QueryPlanner.Proofs.Execution.Streams

namespace QueryPlanner

open Answers

variable {source : RowSource} {scope : Scope} {outer scopes : List Scope} {v : Var} {as : Answers}
  {e : ExecutionError}

/-! ## Code -/

/-- Code that has an outcome in some scopes, whatever was emitted, and changes nothing. -/
def CodeExpr.Gives (code : CodeExpr) (scopes : List Scope) (o : Except ExecutionError Value) : Prop :=
  ∀ emitted, (Machine.eval code).run.run ⟨scopes, emitted⟩ = (o, ⟨scopes, emitted⟩)

namespace CodeExpr

variable {code left right : CodeExpr} {r : Except ExecutionError Row} {names : List String}

theorem gives_var {x : Value} (h : Machine.lookup scopes v = some (.value x)) :
    (var v).Gives scopes (.ok x) := fun emitted => Machine.run_valueOf (m := ⟨scopes, emitted⟩) h

/-- Code for a row as wide as there are names, seen as a record with these names. -/
theorem Gives.toRecord (h : code.Gives scopes (r.map .row))
    (hlen : ∀ row, r = .ok row → row.length = names.length) :
    (code.toRecord names).Gives scopes (r.map fun row => .record (names.zip row)) := by
  intro emitted
  rw [Machine.eval]
  cases r with
  | error e => exact run_bind_of_error (h emitted) _
  | ok row =>
      refine (run_bind_of_ok (h emitted) _).trans ?_
      rw [Machine.recordView, if_pos (hlen row rfl)]
      rfl

/-- The values of a record with given names are those of the row that it was made of. -/
theorem flatten_zip {row : Row} (hlen : row.length = names.length) :
    Machine.flatten (names.zip row) names = .ok row := by
  induction names generalizing row with
  | nil =>
      rw [List.length_nil, List.length_eq_zero_iff] at hlen
      subst hlen
      rfl
  | cons name names ih =>
      cases row with
      | nil => cases hlen
      | cons x xs =>
          rw [List.zip_cons_cons, Machine.flatten, if_pos rfl, ih (Nat.succ.inj hlen)]
          rfl

/-- Code for a record that was made of a row, flattened into the row. -/
theorem Gives.toRow (h : code.Gives scopes (r.map fun row => .record (names.zip row)))
    (hlen : ∀ row, r = .ok row → row.length = names.length) :
    (code.toRow names).Gives scopes (r.map .row) := by
  intro emitted
  rw [Machine.eval]
  cases r with
  | error e => exact run_bind_of_error (h emitted) _
  | ok row =>
      have hrow := hlen row rfl
      have hzip : (names.zip row).length = names.length := by
        rw [List.length_zip, hrow, Nat.min_self]
      refine (run_bind_of_ok (h emitted) _).trans ?_
      rw [Machine.rowView, if_pos hzip, flatten_zip hrow]
      rfl

theorem Gives.concat {x y : Row} (hl : left.Gives scopes (.ok (.row x)))
    (hr : right.Gives scopes (.ok (.row y))) :
    (left.concat right).Gives scopes (.ok (.row (x ++ y))) := by
  intro emitted
  rw [Machine.eval, run_bind_of_ok (hl emitted), run_bind_of_ok (hr emitted)]
  rfl

/-- Code for a row of scalars each of which has code. -/
theorem gives_makeRow {α : Type} {values : List α} {code : α → CodeExpr} {x : α → Scalar.Outcome}
    (h : ∀ a ∈ values, (code a).Gives scopes ((x a).map .scalar)) :
    (makeRow (values.map code)).Gives scopes ((values.mapM x).map .row) := by
  intro emitted
  have hvalues : (Machine.evalScalars (values.map code)).run.run ⟨scopes, emitted⟩ =
      (values.mapM x, ⟨scopes, emitted⟩) := by
    induction values with
    | nil => rfl
    | cons a rest ih =>
        obtain ⟨ha, hrest⟩ := List.forall_mem_cons.mp h
        rw [List.map_cons, Machine.evalScalars, List.mapM_cons,
          Machine.run_scalar_bind (ha emitted) (fun v => run_bind_of_pure (ih hrest) fun vs _ =>
            run_pure (v :: vs) _)]
        rfl
  rw [Machine.eval, run_bind_of_pure hvalues fun vs _ => run_pure (Value.row vs) _]
  cases values.mapM x with
  | error e => rfl
  | ok vs => rfl

end CodeExpr

/-! ## Steps -/

/-- A step that emits the rows of some answers and leaves given scopes, or fails with the first
error among the answers. -/
structure HandsOut (x : Machine.Run Unit) (before : List Scope) (as : Answers) (left : List Scope) :
    Prop where
  returns : ∀ rows, all as = .ok rows → ∀ emitted,
    Returns x ⟨before, emitted⟩ () ⟨left, rows.reverse ++ emitted⟩
  fails : ∀ e, all as = .error e → ∀ emitted, Fails x ⟨before, emitted⟩ e

namespace HandsOut

variable {α : Type} {x y : Machine.Run Unit} {z : Machine.Run α} {f : α → Machine.Run Unit}
  {bs : Answers} {before mid left : List Scope}

theorem pure_unit (scopes : List Scope) : HandsOut (pure ()) scopes [] scopes where
  returns rows hrows emitted := by
    cases hrows
    rfl
  fails e he := nomatch he

/-- A step that fails emits nothing that matters. -/
theorem of_fails (h : ∀ emitted, Fails x ⟨before, emitted⟩ e) :
    HandsOut x before [.error e] left where
  returns rows hrows := nomatch hrows
  fails e' he := by
    cases he
    exact h

/-- What was emitted first comes first, and an error ends both. -/
theorem bind (h : HandsOut x before as mid) (h' : HandsOut y mid bs left) :
    HandsOut (x >>= fun _ => y) before (as ++ bs) left := by
  constructor
  · intro rows hrows emitted
    rw [all_append] at hrows
    rcases has : all as with e | first
    · rw [has] at hrows
      cases hrows
    · rcases hbs : all bs with e | more
      · rw [has, hbs] at hrows
        cases hrows
      · rw [has, hbs] at hrows
        cases hrows
        rw [List.reverse_append, List.append_assoc]
        exact (h.returns first has emitted).bind (h'.returns more hbs _)
  · intro e he emitted
    rw [all_append] at he
    rcases has : all as with e' | first
    · rw [has] at he
      cases he
      exact (h.fails e has emitted).bind _
    · rcases hbs : all bs with e' | more
      · rw [has, hbs] at he
        cases he
        exact .of_returns (h.returns first has emitted) (h'.fails e hbs _)
      · rw [has, hbs] at he
        cases he

/-- A step that emits nothing goes before another one. -/
theorem bind_of_returns {a : α}
    (h : ∀ emitted, Returns z ⟨before, emitted⟩ a ⟨mid, emitted⟩) (h' : HandsOut (f a) mid as left) :
    HandsOut (z >>= f) before as left where
  returns rows hrows emitted := (h emitted).bind (h'.returns rows hrows emitted)
  fails e he emitted := .of_returns (h emitted) (h'.fails e he emitted)

/-- Nothing comes after a step that fails. -/
theorem bind_of_fails (h : ∀ emitted, Fails z ⟨before, emitted⟩ e) :
    HandsOut (z >>= f) before [.error e] left :=
  of_fails fun emitted => (h emitted).bind f

/-- What runs in a scope of its own leaves the scopes around it. -/
theorem inScope (final : Scope) (h : HandsOut x ([] :: before) as (final :: left)) :
    HandsOut (Machine.inScope x) before as left where
  returns rows hrows emitted := by
    have hrun : x.run.run ⟨[] :: before, emitted⟩ =
        (.ok (), ⟨final :: left, rows.reverse ++ emitted⟩) := h.returns rows hrows emitted
    exact congrArg (fun p => (p.1, ({ p.2 with scopes := p.2.scopes.tail } : Machine))) hrun
  fails e he emitted := by
    obtain ⟨m, hm⟩ := h.fails e he emitted
    refine ⟨{ m with scopes := m.scopes.tail }, ?_⟩
    exact congrArg (fun p => (p.1, ({ p.2 with scopes := p.2.scopes.tail } : Machine))) hm

end HandsOut

/-! ## Statements -/

/-- Statements that run in a scope, emit the rows of some answers up to the first error, and leave
the scopes around them as they are. -/
def Emits (source : RowSource) (program : List Statement) (scope : Scope) (outer : List Scope)
    (as : Answers) : Prop :=
  ∃ rest, HandsOut (execAll source program) (scope :: outer) as (rest :: outer)

section Statements

variable {program rest body : List Statement}

/-- A statement that only changes the innermost scope goes before others. -/
theorem emits_cons {s : Statement} {next : Scope}
    (h : ∀ emitted, Returns (s.exec source) ⟨scope :: outer, emitted⟩ ()
      ⟨next :: outer, emitted⟩) (hrest : Emits source rest next outer as) :
    Emits source (s :: rest) scope outer as := by
  obtain ⟨final, hfinal⟩ := hrest
  refine ⟨final, ?_⟩
  show HandsOut (do s.exec source; execAll source rest) _ _ _
  exact .bind_of_returns h hfinal

/-- Nothing comes after a statement that fails. -/
theorem emits_cons_error {s : Statement}
    (h : ∀ emitted, Fails (s.exec source) ⟨scope :: outer, emitted⟩ e) :
    Emits source (s :: rest) scope outer [.error e] := by
  refine ⟨scope, ?_⟩
  show HandsOut (do s.exec source; execAll source rest) _ _ _
  exact .bind_of_fails h

/-- A single statement runs as it does by itself. -/
theorem emits_singleton {s : Statement} (final : Scope)
    (h : HandsOut (s.exec source) (scope :: outer) as (final :: outer)) :
    Emits source [s] scope outer as := by
  refine ⟨final, ?_⟩
  show HandsOut (do s.exec source; pure ()) _ _ _
  rw [← List.append_nil as]
  exact h.bind (.pure_unit _)

theorem emits_assign {code : CodeExpr} {x : Value} (h : code.Gives (scope :: outer) (.ok x))
    (hrest : Emits source rest (scope.insert v (.value x)) outer as) :
    Emits source (.assign v code :: rest) scope outer as := by
  refine emits_cons (fun emitted => ?_) hrest
  show Returns (do Machine.bind v (.value (← Machine.eval code))) _ _ _
  exact Returns.bind (h emitted) rfl

theorem emits_assign_error {code : CodeExpr} (h : code.Gives (scope :: outer) (.error e)) :
    Emits source (.assign v code :: rest) scope outer [.error e] := by
  refine emits_cons_error fun emitted => ?_
  show Fails (do Machine.bind v (.value (← Machine.eval code))) _ _
  exact Fails.bind ⟨_, h emitted⟩ _

theorem emits_openCursor {p : Pipeline} {c : Cursor} (h : p.cursor source = .ok c)
    (hrest : Emits source rest (scope.insert v (.cursor c)) outer as) :
    Emits source (.openCursor v p :: rest) scope outer as := by
  refine emits_cons (fun emitted => ?_) hrest
  show Returns (do
    let c ← (p.cursor source : Except ExecutionError Cursor)
    Machine.bind v (.cursor c) : Machine.Run Unit) _ _ _
  rw [h]
  rfl

theorem emits_openCursor_error {p : Pipeline} (h : p.cursor source = .error e) :
    Emits source (.openCursor v p :: rest) scope outer [.error e] := by
  refine emits_cons_error fun emitted => ⟨⟨scope :: outer, emitted⟩, ?_⟩
  show (do
    let c ← (p.cursor source : Except ExecutionError Cursor)
    Machine.bind v (.cursor c) : Machine.Run Unit).run.run _ = _
  rw [h]
  rfl

theorem emits_emit {code : CodeExpr} {o : Except ExecutionError Value}
    (h : code.Gives (scope :: outer) o) :
    Emits source [.emit code] scope outer (after o fun x => [.ok x.toRow]) := by
  refine emits_singleton scope ?_
  show HandsOut (do Machine.emit (← Machine.eval code).toRow) _ _ _
  cases o with
  | error e => exact .bind_of_fails fun emitted => ⟨_, h emitted⟩
  | ok x =>
      refine .bind_of_returns h ⟨fun rows hrows emitted => ?_, fun e he => nomatch he⟩
      cases hrows
      rfl

/-- A branch runs its body only where its condition is TRUE. -/
theorem emits_ifThen {condition : CodeExpr} {o : Scalar.Outcome}
    (h : condition.Gives (scope :: outer) (o.map .scalar))
    (hbody : ∀ x, o = .ok x → x.isTrue = true → Emits source body [] (scope :: outer) as) :
    Emits source [.ifThen condition body] scope outer
      (after o fun x => if x.isTrue then as else []) := by
  refine emits_singleton scope ?_
  show HandsOut (do
    if (← Machine.eval condition).isTrue then Machine.inScope (execAll source body)) _ _ _
  cases o with
  | error e => exact .bind_of_fails fun emitted => ⟨_, h emitted⟩
  | ok x =>
      refine .bind_of_returns h ?_
      show HandsOut (if x.isTrue = true then _ else _) _ (if x.isTrue = true then _ else _) _
      by_cases hx : x.isTrue = true
      · rw [if_pos hx, if_pos hx]
        obtain ⟨final, hfinal⟩ := hbody x rfl hx
        exact hfinal.inScope final
      · rw [if_neg hx, if_neg hx]
        exact .pure_unit _

/-- A branch on a predicate runs its body where the row is kept. -/
theorem emits_keep {condition : CodeExpr} {o : Scalar.Outcome} {row : Row} {out : Row → Answers}
    (h : condition.Gives (scope :: outer) (o.map .scalar))
    (hbody : .ok row ∈ keep row o → Emits source body [] (scope :: outer) (out row)) :
    Emits source [.ifThen condition body] scope outer (forEach out (keep row o)) := by
  have hkeep : forEach out (keep row o) =
      after o fun x => if x.isTrue then out row else [] := by
    unfold keep
    rw [forEach_after]
    congr 1
    funext x
    split
    · exact forEach_singleton out (.ok row)
    · rfl
  rw [hkeep]
  refine emits_ifThen h fun x hx htrue => hbody ?_
  unfold keep
  rw [hx, after_ok, if_pos htrue]
  exact List.mem_singleton_self _

/-- A program gives all rows that it emits, unless it fails. -/
theorem runProgram_of_emits (h : Emits source program [] [] as) :
    runProgram source program = all as := by
  obtain ⟨final, hfinal⟩ := h
  unfold runProgram
  rcases has : all as with e | rows
  · obtain ⟨m, hm⟩ := hfinal.fails e has []
    rw [show (execAll source program).run.run {} = (.error e, m) from hm]
  · have hrun : (execAll source program).run.run {} = (.ok (), ⟨[final], rows.reverse ++ []⟩) :=
      hfinal.returns rows has []
    rw [hrun]
    dsimp only
    rw [List.append_nil, List.reverse_reverse]

end Statements

/-! ## Loops over a cursor -/

section Loops

variable {cursor : Var} {c : Cursor}

/-- The rows that a cursor in a scope has left are counted there. -/
theorem bound_le_scopeRows (h : scope.get? v = some (.cursor c)) :
    c.bound ≤ Machine.scopeRows scope := by
  induction scope with
  | nil => cases h
  | cons p rest ih =>
      obtain ⟨w, slot⟩ := p
      rw [Dictionary.get?] at h
      split at h
      · cases h
        exact Nat.le_add_right _ _
      · cases slot with
        | value x => exact ih h
        | cursor c' => exact Nat.le_trans (ih h) (Nat.le_add_left _ _)

/-- A cursor has something left just if it is left with any answers. -/
theorem gives_hasNext (hcursor : scope.get? cursor = some (.cursor c)) (has : c.toList = as) :
    (CodeExpr.hasNext cursor).Gives (scope :: outer) (.ok (.scalar (.bool !as.isEmpty))) := by
  intro emitted
  have hlookup : (Machine.cursorOf cursor).run.run ⟨scope :: outer, emitted⟩ =
      (.ok c, ⟨scope :: outer, emitted⟩) := by
    rw [Machine.cursorOf, run_bind_of_ok (x := (get : Machine.Run Machine)) rfl]
    rw [show Machine.lookup (scope :: outer) cursor = some (.cursor c) by
      rw [Machine.lookup, hcursor]]
    rfl
  rw [Machine.eval, run_bind_of_ok hlookup, Cursor.isDone_eq has]
  rfl

/-- Taking what is next from a cursor of the enclosing scope leaves the rest there. -/
theorem run_next (outer : List Scope) {x : Except ExecutionError Row} {rest : Cursor}
    (hcursor : scope.get? cursor = some (.cursor c)) (hnext : c.next? = some (x, rest))
    (emitted : List Row) :
    (Machine.eval (.next cursor)).run.run ⟨[] :: scope :: outer, emitted⟩ =
      (x.map .row, ⟨[] :: scope.insert cursor (.cursor rest) :: outer, emitted⟩) := by
  have hlookup : Machine.lookup ([] :: scope :: outer) cursor = some (.cursor c) := by
    rw [Machine.lookup, Dictionary.get?, Machine.lookup, hcursor]
  -- the round's own scope does not bind the cursor, the scope around it does
  have hreplace : Machine.replace ([] :: scope :: outer) cursor (.cursor rest) =
      [] :: scope.insert cursor (.cursor rest) :: outer := by
    have hcontains : scope.contains cursor = true := by
      unfold Dictionary.contains
      rw [hcursor]
      rfl
    rw [Machine.replace, if_neg (show ¬Dictionary.contains [] cursor = true from Bool.false_ne_true),
      Machine.replace, if_pos hcontains]
  have hcursorOf : (Machine.cursorOf cursor).run.run ⟨[] :: scope :: outer, emitted⟩ =
      (.ok c, ⟨[] :: scope :: outer, emitted⟩) := by
    rw [Machine.cursorOf, run_bind_of_ok (x := (get : Machine.Run Machine)) rfl, hlookup]
    rfl
  have htake : (Machine.take cursor).run.run ⟨[] :: scope :: outer, emitted⟩ =
      (x, ⟨[] :: scope.insert cursor (.cursor rest) :: outer, emitted⟩) := by
    rw [Machine.take, run_bind_of_ok hcursorOf, hnext, ← hreplace]
    cases x with
    | error e => rfl
    | ok row => rfl
  rw [Machine.eval]
  cases x with
  | error e => exact run_bind_of_error htake _
  | ok row => exact run_bind_of_ok htake _

variable {body : List Statement} {out : Row → Answers} {I : Scope → Prop}

/-- A round of a loop over a cursor takes what is next, and the body runs if that is a row. -/
theorem handsOut_round {x : Except ExecutionError Row} {rest : Cursor}
    (hcursor : scope.get? cursor = some (.cursor c)) (hnext : c.next? = some (x, rest))
    (hbody : ∀ row, x = .ok row →
      Emits source body [(v, .value (.row row))] (scope.insert cursor (.cursor rest) :: outer)
        (out row)) :
    HandsOut (Machine.inScope (execAll source (.assign v (.next cursor) :: body)))
      (scope :: outer) (after x out) (scope.insert cursor (.cursor rest) :: outer) := by
  have hrun := run_next outer hcursor hnext
  cases x with
  | error e =>
      refine HandsOut.inScope [] ?_
      show HandsOut (do
        (do Machine.bind v (.value (← Machine.eval (.next cursor))))
        execAll source body) _ _ _
      exact .bind_of_fails fun emitted => Fails.bind ⟨_, hrun emitted⟩ _
  | ok row =>
      obtain ⟨final, hfinal⟩ := hbody row rfl
      refine HandsOut.inScope final ?_
      show HandsOut (do
        (do Machine.bind v (.value (← Machine.eval (.next cursor))))
        execAll source body) _ _ _
      exact .bind_of_returns (fun emitted => Returns.bind (hrun emitted) rfl) hfinal

/-- The rounds of a loop over a cursor, in a scope with a property that taking rows keeps. -/
theorem handsOut_rounds (hkeep : ∀ scope rest, I scope → I (scope.insert cursor (.cursor rest)))
    (hbody : ∀ row, .ok row ∈ as → ∀ scope, I scope →
      Emits source body [(v, .value (.row row))] (scope :: outer) (out row))
    (hscope : I scope) (hcursor : scope.get? cursor = some (.cursor c)) (has : c.toList = as)
    {fuel : Nat} (hfuel : as.length < fuel) :
    ∃ final, HandsOut
      (Machine.repeatWhile (do
        if (← Machine.eval (.hasNext cursor)).isTrue then
          Machine.inScope (execAll source (.assign v (.next cursor) :: body))
          pure true
        else pure false) fuel)
      (scope :: outer) (forEach out as) (final :: outer) := by
  induction as generalizing scope c fuel with
  | nil =>
      obtain ⟨fuel, rfl⟩ := Nat.exists_eq_add_of_lt hfuel
      refine ⟨scope, ?_⟩
      rw [Machine.repeatWhile, bind_assoc]
      exact .bind_of_returns (gives_hasNext hcursor has) (.pure_unit _)
  | cons x rest ih =>
      obtain ⟨fuel, rfl⟩ := Nat.exists_eq_add_of_lt hfuel
      obtain ⟨taken, hnext, hrest⟩ := Cursor.exists_next? has
      -- the round, and what the loop goes on with
      have hround : HandsOut (Machine.inScope (execAll source (.assign v (.next cursor) :: body)))
          (scope :: outer) (after x out) (scope.insert cursor (.cursor taken) :: outer) :=
        handsOut_round hcursor hnext fun row hrow =>
          hbody row (hrow ▸ List.mem_cons_self) _ (hkeep _ _ hscope)
      obtain ⟨final, hfinal⟩ := ih (fun row hrow => hbody row (List.mem_cons_of_mem _ hrow))
        (hkeep scope taken hscope) (by rw [Dictionary.get?_insert, if_pos rfl]) hrest
        (Nat.lt_succ_of_le (Nat.le_add_right rest.length fuel))
      refine ⟨final, ?_⟩
      rw [show (x :: rest).length + fuel + 1 = rest.length + fuel + 1 + 1 by
        rw [List.length_cons]; omega, Machine.repeatWhile, bind_assoc]
      refine .bind_of_returns (gives_hasNext hcursor has) ?_
      rw [if_pos (show (Value.scalar (.bool !(x :: rest).isEmpty)).isTrue = true from rfl),
        bind_assoc]
      exact hround.bind hfinal

/-- A loop over a cursor runs its body on every row that is left, in a scope that has a property
which taking rows keeps. -/
theorem emits_loop (hkeep : ∀ scope rest, I scope → I (scope.insert cursor (.cursor rest)))
    (hbody : ∀ row, .ok row ∈ as → ∀ scope, I scope →
      Emits source body [(v, .value (.row row))] (scope :: outer) (out row))
    (hscope : I scope) (hcursor : scope.get? cursor = some (.cursor c)) (has : c.toList = as) :
    Emits source [.whileDo (.hasNext cursor) (.assign v (.next cursor) :: body)] scope outer
      (forEach out as) := by
  -- the fuel of a loop counts the rows left in all scopes, those of its cursor among them
  have hfuel : as.length < Machine.rowsLeft ⟨scope :: outer, []⟩ + 1 := by
    unfold Machine.rowsLeft
    rw [List.foldr_cons]
    have hbound := bound_le_scopeRows hcursor
    have hlength := c.length_toList_le
    rw [has] at hlength
    omega
  obtain ⟨final, hfinal⟩ := handsOut_rounds hkeep hbody hscope hcursor has hfuel
  refine emits_singleton final ?_
  rw [Statement.exec, Machine.loop]
  have hget : ∀ emitted, Returns (get : Machine.Run Machine) ⟨scope :: outer, emitted⟩
      ⟨scope :: outer, emitted⟩ ⟨scope :: outer, emitted⟩ := fun _ => rfl
  exact ⟨fun rows hrows emitted => (hget emitted).bind (hfinal.returns rows hrows emitted),
    fun e he emitted => .of_returns (hget emitted) (hfinal.fails e he emitted)⟩

end Loops

end QueryPlanner
