/-
# Expressions and the code for them

Generated code evaluates all operands of a conjunction or disjunction before it looks at
the first of them. An expression stops at the operand that settles the outcome, so code
can fail at an operand that the expression never reaches.

* `run_eval_lower` : code for an expression gives the outcome of the expression, or the
  first failure among the operands that the expression leaves out;
* `eval_lower_eq_iff` : so it gives the expression's outcome exactly if no operand that is
  left out fails, or the expression fails in the same way.
-/
import QueryPlanner.Code.Lowering
import QueryPlanner.Execution.Machine
import QueryPlanner.Proofs.Running

namespace QueryPlanner

/-- Whether an operand ends a conjunction, where `unit` is TRUE, or a disjunction, where it
is FALSE: a truth value that decides it, or no truth value at all. -/
def Scalar.settles (unit : Bool) : Scalar → Bool
  | null => false
  | bool b => b != unit
  | _ => true

/-- Nothing behind an operand that ends a conjunction matters. -/
theorem Scalar.allOf_of_settles (missing : Bool) (v : Scalar) (rest rest' : List Outcome)
    (h : v.settles true = true) :
    allOf missing (.ok v :: rest) = allOf missing (.ok v :: rest') := by
  cases v with
  | null => cases h
  | bool b =>
    cases b with
    | false => rfl
    | true => cases h
  | _ => rfl

/-- A conjunction goes on behind any other operand. -/
theorem Scalar.allOf_of_not_settles (missing : Bool) (v : Scalar) (h : v.settles true = false) :
    ∃ missing', ∀ rest, allOf missing (.ok v :: rest) = allOf missing' rest := by
  cases v with
  | null => exact ⟨true, fun _ => rfl⟩
  | bool b =>
    cases b with
    | false => cases h
    | true => exact ⟨missing, fun _ => rfl⟩
  | _ => cases h

/-- Nothing behind an operand that ends a disjunction matters. -/
theorem Scalar.anyOf_of_settles (missing : Bool) (v : Scalar) (rest rest' : List Outcome)
    (h : v.settles false = true) :
    anyOf missing (.ok v :: rest) = anyOf missing (.ok v :: rest') := by
  cases v with
  | null => cases h
  | bool b =>
    cases b with
    | false => cases h
    | true => rfl
  | _ => rfl

/-- A disjunction goes on behind any other operand. -/
theorem Scalar.anyOf_of_not_settles (missing : Bool) (v : Scalar) (h : v.settles false = false) :
    ∃ missing', ∀ rest, anyOf missing (.ok v :: rest) = anyOf missing' rest := by
  cases v with
  | null => exact ⟨true, fun _ => rfl⟩
  | bool b =>
    cases b with
    | false => exact ⟨missing, fun _ => rfl⟩
    | true => cases h
  | _ => cases h

namespace Expr

/-! ## Operands that are left out -/

mutual

/-- The first failure among the operands that evaluating an expression leaves out. -/
def omittedFailure (row : Row) : Expr → Option ExecutionError
  | column _ => none
  | literal _ => none
  | binary _ l r =>
      match l.omittedFailure row, l.eval row with
      | some x, _ => some x
      | none, .error _ => none
      | none, .ok _ => r.omittedFailure row
  | unary _ e => e.omittedFailure row
  | call _ args => omittedIn row (fun _ => false) args
  | and es => omittedIn row (Scalar.settles true) es
  | or es => omittedIn row (Scalar.settles false) es

/-- The first failure among what evaluating operands up to one that settles the outcome
leaves out. -/
def omittedIn (row : Row) (settles : Scalar → Bool) : List Expr → Option ExecutionError
  | [] => none
  | e :: es =>
      match e.omittedFailure row, e.eval row with
      | some x, _ => some x
      | none, .error _ => none
      | none, .ok v => if settles v then firstFailure row es else omittedIn row settles es

/-- The first failure of operands that all are left out. -/
def firstFailure (row : Row) : List Expr → Option ExecutionError
  | [] => none
  | e :: es =>
      match e.omittedFailure row, e.eval row with
      | some x, _ => some x
      | none, .error x => some x
      | none, .ok _ => firstFailure row es

end

/-- The outcome of an expression of which nothing is left out. -/
def evalWhole (row : Row) (e : Expr) : Scalar.Outcome :=
  match e.omittedFailure row with
  | some x => .error x
  | none => e.eval row

/-- Operands that all evaluate have outcomes as a whole. -/
theorem mapM_evalWhole_of_none {row : Row} {es : List Expr} (h : firstFailure row es = none) :
    ∃ vs, es.mapM (evalWhole row) = .ok vs := by
  induction es with
  | nil => exact ⟨[], rfl⟩
  | cons e es ih =>
    rw [firstFailure] at h
    cases ho : e.omittedFailure row with
    | some x => simp [ho] at h
    | none =>
      cases hv : e.eval row with
      | error x => simp [ho, hv] at h
      | ok v =>
        simp only [ho, hv] at h
        obtain ⟨vs, hvs⟩ := ih h
        refine ⟨v :: vs, ?_⟩
        rw [List.mapM_cons, evalWhole, ho, hv, hvs]
        rfl

/-- The first failure of some operands is that of evaluating them one after another. -/
theorem mapM_evalWhole_of_some {row : Row} {es : List Expr} {x : ExecutionError}
    (h : firstFailure row es = some x) : es.mapM (evalWhole row) = .error x := by
  induction es with
  | nil => simp [firstFailure] at h
  | cons e es ih =>
    rw [firstFailure] at h
    rw [List.mapM_cons, evalWhole]
    cases ho : e.omittedFailure row with
    | some y =>
      simp only [ho, Option.some.injEq] at h
      rw [h]
      rfl
    | none =>
      cases hv : e.eval row with
      | error y =>
        simp only [ho, hv, Option.some.injEq] at h
        rw [h]
        rfl
      | ok v =>
        simp only [ho, hv] at h
        rw [ih h]
        rfl

/-- What a combination of outcomes that goes through them from left to right makes of
whole operands. `combine a` is the combination after some operands, `a` being what they
have come to. -/
theorem combine_evalWhole {τ : Type} {row : Row} {settles : Scalar → Bool}
    {combine : τ → List Scalar.Outcome → Scalar.Outcome}
    (herror : ∀ a x rest, combine a (.error x :: rest) = .error x)
    (hstop : ∀ a v rest rest', settles v = true →
      combine a (.ok v :: rest) = combine a (.ok v :: rest'))
    (hgo : ∀ a v, settles v = false → ∃ b, ∀ rest, combine a (.ok v :: rest) = combine b rest)
    (es : List Expr) (a : τ) :
    (es.mapM (evalWhole row) >>= fun vs => combine a (vs.map .ok)) =
      match omittedIn row settles es with
      | some x => .error x
      | none => combine a (evalList row es) := by
  induction es generalizing a with
  | nil => rfl
  | cons e es ih =>
    rw [List.mapM_cons, evalWhole, omittedIn, evalList]
    cases ho : e.omittedFailure row with
    | some x => rfl
    | none =>
      cases hv : e.eval row with
      | error x =>
        simp only []
        rw [herror]
        rfl
      | ok v =>
        cases hs : settles v with
        | true =>
          simp only [hs, if_true]
          -- all that is left is left out, and evaluated by the code all the same
          cases hf : firstFailure row es with
          | some x =>
            rw [mapM_evalWhole_of_some hf]
            rfl
          | none =>
            obtain ⟨vs, hvs⟩ := mapM_evalWhole_of_none hf
            rw [hvs]
            exact hstop a v _ _ hs
        | false =>
          -- the combination goes on, from what it has come to with this operand
          obtain ⟨b, hb⟩ := hgo a v hs
          simp only [hs, Bool.false_eq_true, if_false, hb]
          rw [← ih b]
          simp only [bind_assoc]
          cases es.mapM (evalWhole row) with
          | error x => rfl
          | ok vs => exact hb _

/-- Outcomes that all are values have these values. -/
theorem mapM_id_map_ok (vs : List Scalar) :
    ((vs.map .ok : List Scalar.Outcome).mapM id) = .ok vs := by
  induction vs with
  | nil => rfl
  | cons v vs ih =>
    rw [List.map_cons, List.mapM_cons, ih]
    rfl

/-! ## What whole evaluation does to each expression -/

theorem evalWhole_binary (row : Row) (op : BinaryOp) (l r : Expr) :
    (binary op l r).evalWhole row =
      (l.evalWhole row >>= fun a => r.evalWhole row >>= fun b => Scalar.binary op a b) := by
  simp only [evalWhole, omittedFailure, eval]
  cases l.omittedFailure row with
  | some x => rfl
  | none =>
    cases l.eval row with
    | error x => rfl
    | ok a => cases r.omittedFailure row <;> rfl

theorem evalWhole_unary (row : Row) (op : UnaryOp) (e : Expr) :
    (unary op e).evalWhole row = (e.evalWhole row >>= fun a => Scalar.unary op a) := by
  simp only [evalWhole, omittedFailure, eval]
  cases e.omittedFailure row <;> rfl

theorem evalWhole_and (row : Row) (es : List Expr) :
    (and es).evalWhole row =
      (es.mapM (evalWhole row) >>= fun vs => Scalar.conjunction (vs.map .ok)) :=
  (combine_evalWhole (fun _ _ _ => rfl) Scalar.allOf_of_settles Scalar.allOf_of_not_settles
    es false).symm

theorem evalWhole_or (row : Row) (es : List Expr) :
    (or es).evalWhole row =
      (es.mapM (evalWhole row) >>= fun vs => Scalar.disjunction (vs.map .ok)) :=
  (combine_evalWhole (fun _ _ _ => rfl) Scalar.anyOf_of_settles Scalar.anyOf_of_not_settles
    es false).symm

theorem evalWhole_call (row : Row) (name : String) (args : List Expr) :
    (call name args).evalWhole row =
      (args.mapM (evalWhole row) >>= fun vs => Scalar.call name vs) := by
  -- a call leaves nothing out: what it has come to are the values seen so far
  have h := @combine_evalWhole _ row (fun _ => false)
    (fun seen outcomes => outcomes.mapM id >>= fun vs => Scalar.call name (seen ++ vs))
    (fun _ _ _ => rfl) (fun _ _ _ _ hs => nomatch hs)
    (fun seen v _ => ⟨seen ++ [v], fun rest => by
      rw [List.mapM_cons]
      cases rest.mapM id with
      | error x => rfl
      | ok vs =>
        show Scalar.call name (seen ++ v :: vs) = Scalar.call name (seen ++ [v] ++ vs)
        rw [List.append_assoc, List.singleton_append]⟩) args []
  simp only [mapM_id_map_ok] at h
  exact h.symm

end Expr

/-! ## Running code for expressions -/

namespace Machine

variable {m : Machine}

/-- Code that gives a scalar without changing the machine goes on with the scalar. -/
theorem run_scalar_bind {β : Type} {x : Run Value} {o : Scalar.Outcome}
    (h : x.run.run m = (o.map Value.scalar, m)) {f : Scalar → Run β}
    {g : Scalar → Except ExecutionError β} (hf : ∀ v, (f v).run.run m = (g v, m)) :
    (x >>= fun value => asScalar value >>= f).run.run m = (o >>= g, m) := by
  cases o with
  | error e => exact run_bind_of_error h _
  | ok v => exact (run_bind_of_ok h _).trans (hf v)

variable {column : Column → CodeExpr} {row : Row}

mutual

/-- Code for an expression gives the outcome of the whole expression and changes nothing,
if the code for its columns gives their values. -/
theorem run_eval_lower : ∀ e : Expr,
    (∀ c ∈ e.columns, (eval (column c)).run.run m =
      (((Expr.column c).eval row).map Value.scalar, m)) →
    (eval (.lower column e)).run.run m = ((e.evalWhole row).map Value.scalar, m)
  | .column c, hc => hc c (List.mem_singleton_self c)
  | .literal v, _ => rfl
  | .binary op l r, hc => by
      have hl := run_eval_lower l fun c h => hc c (List.mem_append_left _ h)
      have hr := run_eval_lower r fun c h => hc c (List.mem_append_right _ h)
      rw [CodeExpr.lower, eval, Expr.evalWhole_binary,
        run_scalar_bind hl (fun a => run_scalar_bind hr fun b => run_bind_of_pure
          (run_lift (Scalar.binary op a b) m) fun v _ => run_pure (Value.scalar v) m)]
      cases l.evalWhole row with
      | error x => rfl
      | ok a => cases r.evalWhole row <;> rfl
  | .unary op e, hc => by
      have he := run_eval_lower e hc
      rw [CodeExpr.lower, eval, Expr.evalWhole_unary,
        run_scalar_bind he (fun a => run_bind_of_pure
          (run_lift (Scalar.unary op a) m) fun v _ => run_pure (Value.scalar v) m)]
      cases e.evalWhole row <;> rfl
  | .call name args, hc => by
      have hs := run_evalScalars_lower args hc
      rw [CodeExpr.lower, eval, Expr.evalWhole_call,
        run_bind_of_pure hs fun vs _ => run_bind_of_pure
          (run_lift (Scalar.call name vs) m) fun v _ => run_pure (Value.scalar v) m]
      cases args.mapM (Expr.evalWhole row) <;> rfl
  | .and es, hc => by
      have hs := run_evalScalars_lower es hc
      rw [CodeExpr.lower, eval, Expr.evalWhole_and,
        run_bind_of_pure hs fun vs _ => run_bind_of_pure
          (run_lift (Scalar.conjunction (vs.map .ok)) m) fun v _ => run_pure (Value.scalar v) m]
      cases es.mapM (Expr.evalWhole row) <;> rfl
  | .or es, hc => by
      have hs := run_evalScalars_lower es hc
      rw [CodeExpr.lower, eval, Expr.evalWhole_or,
        run_bind_of_pure hs fun vs _ => run_bind_of_pure
          (run_lift (Scalar.disjunction (vs.map .ok)) m) fun v _ => run_pure (Value.scalar v) m]
      cases es.mapM (Expr.evalWhole row) <;> rfl

/-- Code for several expressions gives their values one after another. -/
theorem run_evalScalars_lower : ∀ es : List Expr,
    (∀ c ∈ Expr.columnsOfList es, (eval (column c)).run.run m =
      (((Expr.column c).eval row).map Value.scalar, m)) →
    (evalScalars (CodeExpr.lowerList column es)).run.run m = (es.mapM (Expr.evalWhole row), m)
  | [], _ => rfl
  | e :: es, hc => by
      have he := run_eval_lower e fun c h => hc c (List.mem_append_left _ h)
      have hs := run_evalScalars_lower es fun c h => hc c (List.mem_append_right _ h)
      rw [CodeExpr.lowerList, evalScalars, List.mapM_cons,
        run_scalar_bind he (fun v => run_bind_of_pure hs fun vs _ => run_pure (v :: vs) m)]
      rfl

end

/-! ## Columns -/

/-- A variable is read where it is bound. -/
theorem run_valueOf {v : Var} {x : Value} (h : lookup m.scopes v = some (.value x)) :
    (valueOf v).run.run m = (.ok x, m) := by
  rw [valueOf, run_bind_of_ok (x := (get : Run Machine)) (s := m) rfl, h]
  rfl

/-- Code for a column of a row in a variable gives its value. -/
theorem run_eval_field {v : Var} (h : lookup m.scopes v = some (.value (.row row))) (c : Column) :
    (eval (.field (.var v) c.index)).run.run m =
      (((Expr.column c).eval row).map Value.scalar, m) := by
  rw [eval, eval, run_bind_of_ok (run_valueOf h), fieldOf, Expr.eval]
  cases row[c.index]? <;> rfl

/-- Code for a column of a record in a variable gives its value. -/
theorem run_eval_recordField {v : Var} {t : RowType}
    (h : lookup m.scopes v = some (.value (.record (t.names.zip row))))
    (ht : t.width = row.length) (c : Column) (hc : c.index < row.length) :
    (eval (.recordField (.var v) c.index
      ((t.fields[c.index]?.map Field.name).getD c.name))).run.run m =
      (((Expr.column c).eval row).map Value.scalar, m) := by
  have hf : c.index < t.fields.length := Nat.lt_of_lt_of_eq hc ht.symm
  have hz : (t.names.zip row)[c.index]? = some (t.fields[c.index].name, row[c.index]) := by
    rw [List.getElem?_eq_getElem (by
      rw [List.length_zip, RowType.length_names, ht, Nat.min_self]
      exact hc)]
    simp [RowType.names]
  rw [eval, eval, run_bind_of_ok (run_valueOf h), recordFieldOf, hz, Expr.eval,
    List.getElem?_eq_getElem hf, List.getElem?_eq_getElem hc]
  simp only [Option.map_some, Option.getD_some, if_true]
  rfl

end Machine

/-- What code for an expression over the row `row` can be, and what the variable that it
reads then holds: the row itself, or the record that pairs it with the names of `t`. -/
inductive LowersTo (e : Expr) (v : Var) (t : RowType) (row : Row) : CodeExpr → Value → Prop where
  | positional : LowersTo e v t row (.lowerPositional e v) (.row row)
  | named : LowersTo e v t row (.lowerNamed e v t) (.record (t.names.zip row))

/-- Code for an expression gives the outcome of the whole expression and changes nothing. -/
theorem LowersTo.run_eval {e : Expr} {v : Var} {t : RowType} {row : Row} {code : CodeExpr}
    {held : Value} {m : Machine} (hcode : LowersTo e v t row code held)
    (hwide : ∀ c ∈ e.columns, c.index < row.length) (ht : t.width = row.length)
    (hv : Machine.lookup m.scopes v = some (.value held)) :
    (Machine.eval code).run.run m = ((e.evalWhole row).map Value.scalar, m) := by
  cases hcode with
  | positional =>
    exact Machine.run_eval_lower e fun c _ => Machine.run_eval_field hv c
  | named =>
    exact Machine.run_eval_lower e fun c hc =>
      Machine.run_eval_recordField hv ht c (hwide c hc)

/-- Code for an expression gives the outcome of the expression exactly if the first of the
operands that the expression leaves out and that fail, if there is any, fails as the
expression itself does. Otherwise the code fails with that operand. -/
theorem eval_lower_eq_iff {e : Expr} {v : Var} {t : RowType} {row : Row} {code : CodeExpr}
    {held : Value} {m : Machine} (hcode : LowersTo e v t row code held)
    (hwide : ∀ c ∈ e.columns, c.index < row.length) (ht : t.width = row.length)
    (hv : Machine.lookup m.scopes v = some (.value held)) :
    ((Machine.eval code).run.run m = ((e.eval row).map Value.scalar, m) ↔
      ∀ x, e.omittedFailure row = some x → e.eval row = .error x) ∧
    ∀ x, e.omittedFailure row = some x → (Machine.eval code).run.run m = (.error x, m) := by
  rw [hcode.run_eval hwide ht hv, Expr.evalWhole]
  cases ho : e.omittedFailure row with
  | none => simp
  | some x =>
    refine ⟨⟨fun h => ?_, fun h => ?_⟩, fun y hy => ?_⟩
    · rintro y ⟨⟩
      cases he : e.eval row with
      | error z =>
        rw [he] at h
        cases h
        rfl
      | ok v =>
        rw [he] at h
        cases h
    · rw [h x rfl]
    · cases hy
      rfl

/-- A quotient guarded by a test of its divisor: `x <> 0 AND 1 / x > 0`. -/
def guardedQuotient : Expr :=
  .and [.binary .notEq (.col "x" 0) (.literal (.int 0)),
    .binary .gt (.binary .div (.literal (.int 1)) (.col "x" 0)) (.literal (.int 0))]

/-- A machine whose first variable holds a value. -/
def Machine.holding (x : Value) : Machine := { scopes := [[(⟨0⟩, .value x)]] }

/-- The guard keeps the expression from dividing by zero, and does not keep its code. -/
theorem guard_lost_in_code :
    guardedQuotient.eval [.int 0] = .ok (.bool false) ∧
      (Machine.eval (.lowerPositional guardedQuotient ⟨0⟩)).run.run (.holding (.row [.int 0])) =
        (.error .divisionByZero, .holding (.row [.int 0])) :=
  ⟨rfl, rfl⟩

/-- The guarded quotient over a record: its divisor is there, its code fails as the
quotient that is left out. -/
theorem eval_lower_eq_iff_guardedQuotient :
    (∀ c ∈ guardedQuotient.columns, c.index < [Scalar.int 0].length) ∧
      (Machine.eval (.lowerNamed guardedQuotient ⟨0⟩ ⟨[⟨"x", .int64, true⟩]⟩)).run.run
          (.holding (.record [("x", .int 0)])) =
        (.error .divisionByZero, .holding (.record [("x", .int 0)])) :=
  have hwide : ∀ c ∈ guardedQuotient.columns, c.index < [Scalar.int 0].length := by decide
  ⟨hwide, (eval_lower_eq_iff (LowersTo.named (t := ⟨[⟨"x", .int64, true⟩]⟩)) hwide rfl rfl).2
    .divisionByZero rfl⟩

end QueryPlanner
