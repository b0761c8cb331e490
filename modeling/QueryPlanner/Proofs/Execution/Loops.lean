/-
# Loops of generated code

The machine gives a loop as many rounds as its cursors have rows left, and one more. A round takes a
row from a cursor, or it leaves all variables as they were; and as code does not read what was emitted,
the next round then does the same, and so do all that follow. So a loop that ends does so within its
rounds, with what it would end with if nobody counted them, and only a loop that never ends fails with
`endlessLoop` instead.

* `Machine.Advances.scopes_eq_or_rowsLeft_lt` : variables change only where rows are taken;
* `Machine.Oblivious` : a step that does not read what was emitted earlier, and `oblivious_execAll` :
  no code does;
* `Machine.run_loop` : what becomes of loops whose rounds are so;
* `Statement.run_whileDo` : what becomes of the loops of a program.
-/
import QueryPlanner.Proofs.Execution.Scopes
import QueryPlanner.Proofs.Loops

namespace QueryPlanner

/-! ## Rows that are left -/

/-- Every row that is taken lowers the bound on those that are left. -/
theorem Cursor.bound_lt_of_next? {c d : Cursor} {row : Except ExecutionError Row}
    (h : c.next? = some (row, d)) : d.bound < c.bound := by
  unfold Cursor.next? at h
  split at h
  · cases h
  · rename_i rest hrows
    have hle := c.length_le
    rw [hrows] at hle
    cases h
    exact Nat.sub_one_lt_of_lt hle

/-- Of a cursor that advanced fewer rows are left, unless it did not. -/
theorem Cursor.Advances.eq_or_bound_lt {c d : Cursor} (h : c.Advances d) :
    d = c ∨ d.bound < c.bound := by
  induction h with
  | refl => exact .inl rfl
  | tail _ hnext ih =>
      obtain ⟨row, hnext⟩ := hnext
      have hlt := bound_lt_of_next? hnext
      rcases ih with rfl | hlt'
      · exact .inr hlt
      · exact .inr (Nat.lt_trans hlt hlt')

/-- Where each member of a list is as it was or smaller than it was, so is the list. -/
theorem eq_or_foldr_lt {α : Type} {R : α → α → Prop} {size : α → Nat}
    (hR : ∀ a b, R a b → b = a ∨ size b < size a) {as bs : List α} (h : List.Forall₂ R as bs) :
    bs = as ∨
      bs.foldr (fun b rows => size b + rows) 0 < as.foldr (fun a rows => size a + rows) 0 := by
  induction h with
  | nil => exact .inl rfl
  | cons hab _ ih =>
      rw [List.foldr_cons, List.foldr_cons]
      rcases hR _ _ hab with rfl | hlt
      · exact ih.imp (congrArg _) fun hlt => Nat.add_lt_add_left hlt _
      · have hle := ih.elim (fun heq => Nat.le_of_eq (heq ▸ rfl)) Nat.le_of_lt
        exact .inr (Nat.add_lt_add_of_lt_of_le hlt hle)

/-- A bound on how many rows a variable has left. -/
def Slot.rows : Slot → Nat
  | .value _ => 0
  | .cursor c => c.bound

/-- A variable that advanced has fewer rows left, unless it did not. -/
theorem Slot.Advances.eq_or_rows_lt {a b : Slot} (h : a.Advances b) : b = a ∨ b.rows < a.rows := by
  cases h with
  | value x => exact .inl rfl
  | cursor h => exact h.eq_or_bound_lt.imp_left (congrArg _)

namespace Machine

variable {m n k : Machine} {α β : Type}

theorem scopeRows_eq_foldr (s : Scope) :
    scopeRows s = s.foldr (fun p rows => p.2.rows + rows) 0 := by
  induction s with
  | nil => rfl
  | cons p rest ih =>
      obtain ⟨v, _ | c⟩ := p
      · rw [scopeRows, ih, List.foldr_cons]
        exact (Nat.zero_add _).symm
      · rw [scopeRows, ih, List.foldr_cons]
        rfl

/-- A scope that advanced has fewer rows left, unless it did not. -/
theorem eq_or_scopeRows_lt {s t : Scope} (h : Scope.Advances s t) :
    t = s ∨ scopeRows t < scopeRows s := by
  rw [scopeRows_eq_foldr, scopeRows_eq_foldr]
  refine eq_or_foldr_lt (fun p q hpq => ?_) h
  obtain ⟨v, a⟩ := p
  obtain ⟨w, b⟩ := q
  obtain ⟨rfl, hab⟩ : v = w ∧ a.Advances b := hpq
  exact hab.eq_or_rows_lt.imp_left (congrArg _)

/-- A machine that advanced has fewer rows left, unless all variables are as they were. -/
theorem Advances.scopes_eq_or_rowsLeft_lt (h : m.Advances n) :
    n.scopes = m.scopes ∨ n.rowsLeft < m.rowsLeft :=
  eq_or_foldr_lt (fun _ _ => eq_or_scopeRows_lt) h.scopes

/-! ## What was emitted earlier -/

/-- A machine as it is if other rows were emitted before those that it emitted. -/
def following (m : Machine) (earlier : List Row) : Machine :=
  { m with emitted := m.emitted ++ earlier }

/-- A step that does not read what was emitted earlier. -/
def Oblivious (x : Run α) : Prop := ∀ m earlier,
  x.run.run (m.following earlier) = ((x.run.run m).1, (x.run.run m).2.following earlier)

section Oblivious

variable {x : Run α} {f : α → Run β}

theorem Oblivious.bind (hx : Oblivious x) (hf : ∀ a, Oblivious (f a)) : Oblivious (x >>= f) := by
  intro m earlier
  have hrun := hx m earlier
  rcases hm : x.run.run m with ⟨e | a, n⟩
  · rw [hm] at hrun
    rw [run_bind_of_error hrun, run_bind_of_error hm]
  · rw [hm] at hrun
    rw [run_bind_of_ok hrun, run_bind_of_ok hm]
    exact hf a n earlier

/-- A step may look at all but what was emitted. -/
theorem oblivious_get_bind {g : Machine → Run β} (hg : ∀ m, Oblivious (g m))
    (hsame : ∀ m earlier, g (m.following earlier) = g m) : Oblivious (get >>= g) := by
  intro m earlier
  show (g (m.following earlier)).run.run (m.following earlier) = _
  rw [hsame]
  exact hg m m earlier

theorem oblivious_pure (a : α) : Oblivious (pure a) := fun _ _ => rfl

theorem oblivious_throw (e : ExecutionError) : Oblivious (throw e : Run α) := fun _ _ => rfl

theorem oblivious_lift (r : Except ExecutionError α) : Oblivious (liftM r : Run α) := fun _ _ => rfl

theorem oblivious_valueOf (v : Var) : Oblivious (valueOf v) := by
  refine oblivious_get_bind (fun m => ?_) fun _ _ => rfl
  split
  · exact oblivious_pure _
  · exact oblivious_throw _
  · exact oblivious_throw _

theorem oblivious_cursorOf (v : Var) : Oblivious (cursorOf v) := by
  refine oblivious_get_bind (fun m => ?_) fun _ _ => rfl
  split
  · exact oblivious_pure _
  · exact oblivious_throw _
  · exact oblivious_throw _

theorem oblivious_take (v : Var) : Oblivious (take v) := by
  refine (oblivious_cursorOf v).bind fun c => ?_
  split
  · exact oblivious_throw _
  · refine Oblivious.bind (fun _ _ => rfl) fun _ => ?_
    split
    · exact oblivious_pure _
    · exact oblivious_throw _

theorem isCompositional_oblivious : IsCompositional fun _ x => Oblivious x where
  pure := oblivious_pure
  throw := oblivious_throw
  lift := oblivious_lift
  bind := Oblivious.bind
  valueOf := oblivious_valueOf
  cursorOf := oblivious_cursorOf
  take := oblivious_take

/-- Expressions do not read what was emitted. -/
theorem oblivious_eval : ∀ code : CodeExpr, Oblivious (eval code) := isCompositional_oblivious.eval

theorem oblivious_bind (v : Var) (slot : Slot) : Oblivious (Machine.bind v slot) := by
  rintro ⟨_ | ⟨scope, rest⟩, emitted⟩ earlier
  · rfl
  · rfl

theorem oblivious_emit (row : Row) : Oblivious (emit row) := fun _ _ => rfl

theorem oblivious_inScope {body : Run Unit} (hbody : Oblivious body) : Oblivious (inScope body) := by
  intro m earlier
  have hrun : body.run.run
      { m.following earlier with scopes := [] :: (m.following earlier).scopes } = _ :=
    hbody { m with scopes := [] :: m.scopes } earlier
  rw [run_inScope, hrun]
  rfl

theorem oblivious_guarded {source : RowSource} {body : List Statement} (condition : CodeExpr)
    (hbody : Oblivious (execAll source body)) : Oblivious (guarded source condition body) := by
  refine (oblivious_eval condition).bind fun x => ?_
  cases x.isTrue with
  | true => exact (oblivious_inScope hbody).bind fun _ => oblivious_pure true
  | false => exact oblivious_pure false

theorem oblivious_loop {step : Run Bool} (h : Oblivious step) : Oblivious (loop step) := by
  refine oblivious_get_bind (fun m => ?_) fun _ _ => rfl
  generalize m.rowsLeft + 1 = rounds
  induction rounds with
  | zero => exact oblivious_throw _
  | succ rounds ih =>
      refine h.bind fun again => ?_
      cases again with
      | true => exact ih
      | false => exact oblivious_pure ()

/-- What a step comes to, and the variables that it leaves, depend on the variables only. -/
theorem Oblivious.returns_of_scopes_eq (hx : Oblivious x) {a : α} (h : Returns x m a n)
    (hsame : k.scopes = m.scopes) : ∃ l, Returns x k a l ∧ l.scopes = n.scopes := by
  have hm := hx ⟨m.scopes, []⟩ m.emitted
  have hk := hx ⟨m.scopes, []⟩ k.emitted
  rw [show following ⟨m.scopes, []⟩ m.emitted = m from rfl, show x.run.run m = (.ok a, n) from h]
    at hm
  rw [show following ⟨m.scopes, []⟩ k.emitted = k by rw [← hsame]; rfl] at hk
  obtain ⟨hvalue, rfl⟩ := Prod.mk.inj hm
  exact ⟨_, hk.trans (Prod.ext hvalue.symm rfl), rfl⟩

end Oblivious

/-! ## Loops -/

/-- One round of a loop, which ends where its step answers that it is not to be repeated. -/
def roundOf (step : Run Bool) : Run (Option Unit) := do
  if ← step then pure none else pure (some ())

section Rounds

variable {step : Run Bool}

theorem repeatWhile_eq_repeatUpTo (step : Run Bool) (fuel : Nat) :
    repeatWhile step fuel = repeatUpTo (roundOf step) (throw .endlessLoop) fuel := by
  induction fuel with
  | zero => rfl
  | succ fuel ih =>
      unfold repeatWhile repeatUpTo roundOf
      rw [bind_assoc]
      refine congrArg (step >>= ·) (funext fun again => ?_)
      cases again with
      | true => exact ih
      | false => rfl

/-- A round leaves all variables as they were, and another one is to follow. -/
def Circles (step : Run Bool) (m : Machine) : Prop :=
  ∃ n, Returns (roundOf step) m none n ∧ n.scopes = m.scopes

/-- All rounds that follow do so too. -/
theorem Circles.again (hstep : Oblivious step) (h : Circles step m) :
    ∃ n, Returns (roundOf step) m none n ∧ Circles step n := by
  have hround : Oblivious (roundOf step) := hstep.bind fun again => by
    cases again with
    | true => exact oblivious_pure none
    | false => exact oblivious_pure (some ())
  obtain ⟨n, hn, hsame⟩ := h
  obtain ⟨k, hk, hsame'⟩ := hround.returns_of_scopes_eq hn hsame
  exact ⟨n, hn, k, hk, hsame'⟩

/-- A loop whose rounds change nothing but cursors, and do not read what was emitted, ends as it does
where rounds are not counted. It fails as endless where it would never end. -/
theorem run_loop (hsteady : Steady step) (hoblivious : Oblivious step) (m : Machine) :
    (∀ r n, Loop (roundOf step) m r n → (loop step).run.run m = (r, n)) ∧
    ((∀ r n, ¬ Loop (roundOf step) m r n) → Fails (loop step) m .endlessLoop) := by
  have hround : ∀ m n, Returns (roundOf step) m none n →
      Circles step m ∨ n.rowsLeft < m.rowsLeft := by
    intro m n hn
    have hkeeps : Steady (roundOf step) := hsteady.bind fun again => by
      cases again with
      | true => exact steady_pure none
      | false => exact steady_pure (some ())
    exact ((hkeeps m).of_returns hn (.refl m)).scopes_eq_or_rowsLeft_lt.imp_left (⟨n, hn, ·⟩)
  have hrun : (loop step).run.run m =
      (repeatUpTo (roundOf step) (throw .endlessLoop) (m.rowsLeft + 1)).run.run m := by
    rw [← repeatWhile_eq_repeatUpTo]
    rfl
  rw [fails_iff, hrun]
  rcases loop_or_endless (throw .endlessLoop) (fun m hm => hm.again hoblivious) hround
      (Nat.lt_succ_self m.rowsLeft) with
    ⟨r, n, hloop, hends⟩ | ⟨hnever, n, hends⟩
  · refine ⟨fun r' n' h => ?_, fun h => absurd hloop (h r n)⟩
    obtain ⟨rfl, rfl⟩ := hloop.unique h
    exact hends
  · exact ⟨fun r n h => absurd h (hnever r n), fun _ => congrArg Prod.fst hends⟩

end Rounds

end Machine

/-! ## Programs -/

mutual

/-- A statement does not read what was emitted. -/
theorem Statement.oblivious_exec (source : RowSource) :
    ∀ s : Statement, Machine.Oblivious (s.exec source)
  | .assign v value => (Machine.oblivious_eval value).bind fun _ => Machine.oblivious_bind v _
  | .openCursor cursor _ =>
      (Machine.oblivious_lift _).bind fun _ => Machine.oblivious_bind cursor _
  | .whileDo condition body => by
      rw [Machine.exec_whileDo]
      exact Machine.oblivious_loop
        (Machine.oblivious_guarded condition (oblivious_execAll source body))
  | .ifThen condition body => by
      refine (Machine.oblivious_eval condition).bind fun x => ?_
      cases x.isTrue with
      | true => exact Machine.oblivious_inScope (oblivious_execAll source body)
      | false => exact Machine.oblivious_pure ()
  | .hole => Machine.oblivious_throw _
  | .emit row => (Machine.oblivious_eval row).bind fun _ => Machine.oblivious_emit _

/-- Statements do not read what was emitted. -/
theorem oblivious_execAll (source : RowSource) :
    ∀ program : List Statement, Machine.Oblivious (execAll source program)
  | [] => Machine.oblivious_pure _
  | s :: rest => (s.oblivious_exec source).bind fun _ => oblivious_execAll source rest

end

/-- A loop of a program ends as it does where its rounds are not counted, with what it emitted and
where it fails, whatever its condition and its body are. It fails as endless where it would never end. -/
theorem Statement.run_whileDo (source : RowSource) (condition : CodeExpr) (body : List Statement)
    (m : Machine) :
    (∀ r n, Loop (Machine.roundOf (Machine.guarded source condition body)) m r n →
      ((whileDo condition body).exec source).run.run m = (r, n)) ∧
    ((∀ r n, ¬ Loop (Machine.roundOf (Machine.guarded source condition body)) m r n) →
      Fails ((whileDo condition body).exec source) m .endlessLoop) := by
  rw [Machine.exec_whileDo]
  exact Machine.run_loop
    (Machine.steady_guarded condition fun n => keeps_surrounds_execAll source n body)
    (Machine.oblivious_guarded condition (oblivious_execAll source body)) m

end QueryPlanner
