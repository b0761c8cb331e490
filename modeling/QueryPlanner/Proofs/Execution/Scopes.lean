/-
# Scopes

What runs in a scope of its own leaves the scopes around it as they were, but for cursors that it took
rows from. It does so wherever it fails, and however its loops and branches are nested: expressions
change nothing but cursors, statements bind variables in the innermost scope only, and every loop and
every branch gives its body a scope that is gone afterwards.

* `Slot.Advances`, `Scope.Advances`, `Machine.Advances` : what may change around a scope;
* `Machine.IsCompositional.eval` : expressions have the properties that all their steps have;
* `Machine.steady_eval` : they change nothing else;
* `Machine.steady_inScope`, `keeps_surrounds_exec` : nor do statements, outside of their scope;
* `scopes_balanced` : so it is for all code that runs in a scope, and nothing that a loop or a branch
  binds can be seen outside of it.
-/
import Mathlib.Data.List.Forall2
import Mathlib.Logic.Relation
import QueryPlanner.Execution
import QueryPlanner.Proofs.Running

namespace QueryPlanner

/-- Lists that are related one by one to lists that are so related are so related. -/
theorem forall₂_trans {α : Type} {R : α → α → Prop} (hR : ∀ a b c, R a b → R b c → R a c)
    {as bs cs : List α} (h : List.Forall₂ R as bs) (h' : List.Forall₂ R bs cs) :
    List.Forall₂ R as cs := by
  induction h generalizing cs with
  | nil => exact h'
  | cons hab _ ih =>
      cases h' with
      | cons hbc hrest => exact .cons (hR _ _ _ hab hbc) (ih hrest)

/-! ## What may change -/

/-- What is left of a cursor when some rows were taken from it. -/
abbrev Cursor.Advances : Cursor → Cursor → Prop :=
  Relation.ReflTransGen fun c d => ∃ row, c.next? = some (row, d)

/-- A variable holds the same value, or what is left of the same cursor. -/
inductive Slot.Advances : Slot → Slot → Prop
  | value (x : Value) : Slot.Advances (.value x) (.value x)
  | cursor {c d : Cursor} (h : c.Advances d) : Slot.Advances (.cursor c) (.cursor d)

theorem Slot.Advances.refl : ∀ slot : Slot, slot.Advances slot
  | .value x => .value x
  | .cursor _ => .cursor .refl

theorem Slot.Advances.trans {a b c : Slot} (h : a.Advances b) (h' : b.Advances c) :
    a.Advances c := by
  cases h with
  | value x => exact h'
  | cursor hcd =>
      cases h' with
      | cursor hde => exact .cursor (hcd.trans hde)

/-- What is not bound is not bound afterwards. -/
theorem Slot.eq_none_of_rel {o : Option Slot} (h : Option.Rel Slot.Advances none o) : o = none := by
  cases h
  rfl

/-- A cursor is a cursor afterwards. -/
theorem Slot.exists_cursor_of_rel {c : Cursor} {o : Option Slot}
    (h : Option.Rel Slot.Advances (some (.cursor c)) o) : ∃ d, o = some (.cursor d) ∧ c.Advances d := by
  cases h with
  | some h =>
      cases h with
      | cursor hadvances => exact ⟨_, rfl, hadvances⟩

/-- The same variables are bound, and what they hold advances. -/
def Scope.Advances (s t : Scope) : Prop :=
  List.Forall₂ (fun p q => p.1 = q.1 ∧ p.2.Advances q.2) s t

namespace Scope.Advances

variable {s t u : Scope} {v : Var} {slot slot' : Slot}

theorem refl (s : Scope) : Scope.Advances s s :=
  List.forall₂_same.mpr fun p _ => ⟨rfl, .refl p.2⟩

theorem trans (h : Scope.Advances s t) (h' : Scope.Advances t u) : Scope.Advances s u :=
  forall₂_trans (fun _ _ _ hp hq => ⟨hp.1.trans hq.1, hp.2.trans hq.2⟩) h h'

/-- What a variable holds advances. -/
theorem get? (h : Scope.Advances s t) (v : Var) :
    Option.Rel Slot.Advances (Dictionary.get? s v) (Dictionary.get? t v) := by
  unfold Scope.Advances at h
  induction h with
  | nil => exact .none
  | @cons p q _ _ hpq _ ih =>
      obtain ⟨w, a⟩ := p
      obtain ⟨w', b⟩ := q
      obtain ⟨rfl, hab⟩ : w = w' ∧ a.Advances b := hpq
      rw [Dictionary.get?, Dictionary.get?]
      by_cases hw : w = v
      · rw [if_pos hw, if_pos hw]
        exact .some hab
      · rw [if_neg hw, if_neg hw]
        exact ih

/-- Nothing else changes when what a variable holds is replaced. -/
theorem insert (hslot : Dictionary.get? s v = some slot) (h : slot.Advances slot') :
    Scope.Advances s (Dictionary.insert s v slot') := by
  induction s with
  | nil => cases hslot
  | cons p rest ih =>
      obtain ⟨w, a⟩ := p
      rw [Dictionary.get?] at hslot
      rw [Dictionary.insert]
      by_cases hw : w = v
      · rw [if_pos hw] at hslot ⊢
        cases hslot
        exact .cons ⟨rfl, h⟩ (refl rest)
      · rw [if_neg hw] at hslot ⊢
        exact .cons ⟨rfl, .refl a⟩ (ih hslot)

/-- The variables are those that were bound before. -/
theorem map_fst_eq (h : Scope.Advances s t) : t.map Prod.fst = s.map Prod.fst := by
  unfold Scope.Advances at h
  induction h with
  | nil => rfl
  | cons hpq _ ih => rw [List.map_cons, List.map_cons, ih, hpq.1]

end Scope.Advances

namespace Machine

/-! ## Machines -/

variable {m n : Machine} {v : Var} {scopes scopes' : List Scope} {slot slot' : Slot}

/-- A variable that is looked up holds the same value, or what is left of the same cursor; and it is
bound only if it was. -/
theorem lookup_advances (h : List.Forall₂ Scope.Advances scopes scopes') (v : Var) :
    Option.Rel Slot.Advances (lookup scopes v) (lookup scopes' v) := by
  induction h with
  | nil => exact .none
  | @cons s t _ _ hst _ ih =>
      have hget := hst.get? v
      rw [lookup, lookup]
      cases hs : Dictionary.get? s v <;> cases ht : Dictionary.get? t v <;> rw [hs, ht] at hget
      case none.none => exact ih
      case some.some => exact hget
      case none.some => cases hget
      case some.none => cases hget

/-- Nothing else changes when what a variable holds is replaced where it is bound. -/
theorem advances_replace (hslot : lookup scopes v = some slot) (h : slot.Advances slot') :
    List.Forall₂ Scope.Advances scopes (replace scopes v slot') := by
  induction scopes with
  | nil => exact .nil
  | cons s rest ih =>
      rw [lookup] at hslot
      rw [replace, Dictionary.contains]
      cases hs : Dictionary.get? s v with
      | some a =>
          rw [hs] at hslot
          cases hslot
          exact .cons (Scope.Advances.insert hs h) (List.forall₂_same.mpr fun t _ => .refl t)
      | none =>
          rw [hs] at hslot
          exact .cons (.refl s) (ih hslot)

/-- A machine whose scopes and variables are those of another one, with the same values and what is
left of the same cursors. Rows were emitted after those of the other one. -/
structure Advances (m n : Machine) : Prop where
  scopes : List.Forall₂ Scope.Advances m.scopes n.scopes
  emitted : m.emitted <:+ n.emitted

theorem Advances.refl (m : Machine) : m.Advances m :=
  ⟨List.forall₂_same.mpr fun s _ => .refl s, List.suffix_refl _⟩

theorem Advances.trans {k : Machine} (h : m.Advances n) (h' : n.Advances k) : m.Advances k :=
  ⟨forall₂_trans (fun _ _ _ hst htu => hst.trans htu) h.scopes h'.scopes,
    h.emitted.trans h'.emitted⟩

/-- The scopes are as many, with the same variables. -/
theorem Advances.variables_eq (h : m.Advances n) :
    n.scopes.map (List.map Prod.fst) = m.scopes.map (List.map Prod.fst) := by
  obtain ⟨hscopes, -⟩ := h
  generalize m.scopes = before, n.scopes = after at hscopes
  induction hscopes with
  | nil => rfl
  | cons hst _ ih => rw [List.map_cons, List.map_cons, ih, hst.map_fst_eq]

/-! ## Expressions -/

/-- A property of the steps that expressions are put together from, which steps in sequence have if
each of them has it. -/
structure IsCompositional (P : ∀ α : Type, Run α → Prop) : Prop where
  pure : ∀ {α : Type} (a : α), P α (pure a)
  throw : ∀ {α : Type} (e : ExecutionError), P α (throw e)
  lift : ∀ {α : Type} (r : Except ExecutionError α), P α (liftM r)
  bind : ∀ {α β : Type} {x : Run α} {f : α → Run β}, P α x → (∀ a, P β (f a)) → P β (x >>= f)
  valueOf : ∀ v : Var, P Value (valueOf v)
  cursorOf : ∀ v : Var, P Cursor (cursorOf v)
  take : ∀ v : Var, P Row (take v)

namespace IsCompositional

variable {P : ∀ α : Type, Run α → Prop} (h : IsCompositional P)

include h

theorem asScalar (x : Value) : P Scalar (asScalar x) := by
  cases x with
  | scalar v => exact h.pure v
  | row | record => exact h.throw _

theorem fieldOf (index : Nat) (x : Value) : P Scalar (fieldOf index x) := by
  cases x with
  | row vs =>
      unfold Machine.fieldOf
      dsimp only
      split
      · exact h.pure _
      · exact h.throw _
  | scalar | record => exact h.throw _

theorem recordFieldOf (index : Nat) (name : String) (x : Value) :
    P Scalar (recordFieldOf index name x) := by
  cases x with
  | record fields =>
      unfold Machine.recordFieldOf
      dsimp only
      split
      · split
        · exact h.pure _
        · exact h.throw _
      · exact h.throw _
  | scalar | row => exact h.throw _

theorem recordView (names : List String) (x : Value) : P Value (recordView names x) := by
  cases x with
  | row vs =>
      unfold Machine.recordView
      dsimp only
      split
      · exact h.pure _
      · exact h.throw _
  | scalar | record => exact h.throw _

theorem rowView (names : List String) (x : Value) : P Value (rowView names x) := by
  cases x with
  | record fields =>
      unfold Machine.rowView
      dsimp only
      split
      · exact h.bind (h.lift _) fun _ => h.pure _
      · exact h.throw _
  | scalar | row => exact h.throw _

theorem concat (x y : Value) : P Value (concat x y) := by
  unfold Machine.concat
  split
  · exact h.pure _
  · exact h.throw _

mutual

/-- Expressions have every such property. -/
theorem eval : ∀ code : CodeExpr, P Value (eval code)
  | .var v => h.valueOf v
  | .literal _ => h.pure _
  | .field row index =>
      h.bind (eval row) fun x => h.bind (h.fieldOf index x) fun _ => h.pure _
  | .recordField record index name =>
      h.bind (eval record) fun x => h.bind (h.recordFieldOf index name x) fun _ => h.pure _
  | .binary _ l r =>
      h.bind (eval l) fun x => h.bind (h.asScalar x) fun _ =>
        h.bind (eval r) fun y => h.bind (h.asScalar y) fun _ =>
          h.bind (h.lift _) fun _ => h.pure _
  | .unary _ e =>
      h.bind (eval e) fun x => h.bind (h.asScalar x) fun _ =>
        h.bind (h.lift _) fun _ => h.pure _
  | .and es => h.bind (evalScalars es) fun _ => h.bind (h.lift _) fun _ => h.pure _
  | .or es => h.bind (evalScalars es) fun _ => h.bind (h.lift _) fun _ => h.pure _
  | .call _ args => h.bind (evalScalars args) fun _ => h.bind (h.lift _) fun _ => h.pure _
  | .makeRow es => h.bind (evalScalars es) fun _ => h.pure _
  | .toRecord row names => h.bind (eval row) fun x => h.recordView names x
  | .toRow record names => h.bind (eval record) fun x => h.rowView names x
  | .concat l r => h.bind (eval l) fun x => h.bind (eval r) fun y => h.concat x y
  | .hasNext v => h.bind (h.cursorOf v) fun _ => h.pure _
  | .next v => h.bind (h.take v) fun _ => h.pure _

theorem evalScalars : ∀ es : List CodeExpr, P (List Scalar) (evalScalars es)
  | [] => h.pure _
  | e :: es =>
      h.bind (eval e) fun x => h.bind (h.asScalar x) fun _ =>
        h.bind (evalScalars es) fun _ => h.pure _

end

end IsCompositional

/-- A step that changes nothing but cursors, and only emits rows. -/
def Steady {α : Type} (x : Run α) : Prop := ∀ m : Machine, Keeps m.Advances x

section Steady

variable {α β : Type} {x : Run α} {f : α → Run β}

/-- It is enough to look at what it makes of every machine. -/
theorem steady_iff : Steady x ↔ ∀ m : Machine, m.Advances (x.run.run m).2 :=
  ⟨fun h m => h m m (.refl m), fun h _ n hn => hn.trans (h n)⟩

theorem Steady.bind (hx : Steady x) (hf : ∀ a, Steady (f a)) : Steady (x >>= f) := fun m =>
  (hx m).bind fun a => hf a m

theorem steady_pure (a : α) : Steady (pure a) := fun _ => keeps_pure a

theorem steady_throw (e : ExecutionError) : Steady (throw e : Run α) := fun _ => keeps_throw e

theorem steady_lift (r : Except ExecutionError α) : Steady (liftM r : Run α) := fun _ => keeps_lift r

end Steady

theorem steady_valueOf (v : Var) : Steady (valueOf v) := fun m =>
  keeps_get_bind fun n hn => by
    split
    · exact keeps_pure _ n hn
    · exact keeps_throw _ n hn
    · exact keeps_throw _ n hn

/-- Looking up a cursor changes nothing. -/
theorem run_cursorOf (v : Var) (m : Machine) :
    ((cursorOf v).run.run m).2 = m ∧ ∀ c, ((cursorOf v).run.run m).1 = .ok c →
      lookup m.scopes v = some (.cursor c) := by
  rw [cursorOf, run_bind_of_ok (x := (get : Run Machine)) rfl]
  rcases lookup m.scopes v with _ | _ | c
  · exact ⟨rfl, nofun⟩
  · exact ⟨rfl, nofun⟩
  · exact ⟨rfl, fun c h => by cases h; rfl⟩

theorem steady_cursorOf (v : Var) : Steady (cursorOf v) :=
  steady_iff.mpr fun m => by
    rw [(run_cursorOf v m).1]
    exact .refl m

/-- Taking a row from a cursor leaves the rest of it, also where the row is an error. -/
theorem steady_take (v : Var) : Steady (take v) := by
  refine steady_iff.mpr fun m => ?_
  obtain ⟨hstate, hlookup⟩ := run_cursorOf v m
  rw [take]
  rcases hrun : (cursorOf v).run.run m with ⟨e | c, n⟩
  · rw [run_bind_of_error hrun]
    rw [hrun] at hstate
    rw [show n = m from hstate]
    exact .refl m
  · rw [run_bind_of_ok hrun]
    rw [hrun] at hstate hlookup
    rw [show n = m from hstate]
    rcases hnext : c.next? with _ | ⟨row, rest⟩
    · exact .refl m
    · have hm : m.Advances { m with scopes := replace m.scopes v (.cursor rest) } :=
        ⟨advances_replace (hlookup c rfl) (.cursor (.single ⟨row, hnext⟩)), List.suffix_refl _⟩
      cases row with
      | error e => exact hm
      | ok row => exact hm

theorem isCompositional_steady : IsCompositional fun _ x => Steady x where
  pure := steady_pure
  throw := steady_throw
  lift := steady_lift
  bind := Steady.bind
  valueOf := steady_valueOf
  cursorOf := steady_cursorOf
  take := steady_take

/-- Expressions change nothing but cursors. -/
theorem steady_eval : ∀ code : CodeExpr, Steady (eval code) := isCompositional_steady.eval

/-! ## Statements -/

/-- A machine runs in a scope of its own, and what is around it advanced from another machine. -/
def Surrounds (m n : Machine) : Prop :=
  ∃ (inner : Scope) (k : Machine), m.Advances k ∧ n.scopes = inner :: k.scopes ∧ n.emitted = k.emitted

/-- A step that changes nothing but cursors keeps the scopes around. -/
theorem Steady.surrounds {α : Type} {x : Run α} (hx : Steady x) (m : Machine) :
    Keeps m.Surrounds x := by
  rintro n ⟨inner, k, hk, hscopes, hemitted⟩
  obtain ⟨hadvances, hsuffix⟩ := hx n n (.refl n)
  generalize (x.run.run n).2 = after at hadvances hsuffix ⊢
  rw [hscopes] at hadvances
  rw [hemitted] at hsuffix
  cases hafter : after.scopes with
  | nil =>
      rw [hafter] at hadvances
      cases hadvances
  | cons inner' outer =>
      rw [hafter] at hadvances
      cases hadvances with
      | cons _ houter =>
          exact ⟨inner', ⟨outer, after.emitted⟩, hk.trans ⟨houter, hsuffix⟩, hafter, rfl⟩

/-- What runs in a scope of its own leaves all scopes but that one. -/
theorem run_inScope (body : Run Unit) (m : Machine) :
    (inScope body).run.run m =
      ((body.run.run { m with scopes := [] :: m.scopes }).1,
        ⟨(body.run.run { m with scopes := [] :: m.scopes }).2.scopes.tail,
          (body.run.run { m with scopes := [] :: m.scopes }).2.emitted⟩) := rfl

/-- A scope of its own is gone in any case, with all that is bound in it. -/
theorem steady_inScope {body : Run Unit} (hbody : ∀ m : Machine, Keeps m.Surrounds body) :
    Steady (inScope body) := by
  refine steady_iff.mpr fun m => ?_
  obtain ⟨inner, k, hk, hscopes, hemitted⟩ :=
    hbody m { m with scopes := [] :: m.scopes } ⟨[], m, .refl m, rfl, rfl⟩
  rw [run_inScope, hscopes, hemitted]
  exact hk

theorem keeps_surrounds_bind (m : Machine) (v : Var) (slot : Slot) :
    Keeps m.Surrounds (bind v slot) := by
  refine keeps_modify fun n hn => ?_
  obtain ⟨inner, k, hk, hscopes, hemitted⟩ := hn
  rw [hscopes]
  exact ⟨inner.insert v slot, k, hk, rfl, hemitted⟩

theorem steady_emit (row : Row) : Steady (emit row) :=
  steady_iff.mpr fun m => ⟨(Advances.refl m).scopes, List.suffix_cons row m.emitted⟩

/-- A loop keeps what each of its rounds keeps. -/
theorem keeps_loop {P : Machine → Prop} {step : Run Bool} (h : Keeps P step) :
    Keeps P (loop step) := by
  have hrepeat : ∀ fuel, Keeps P (repeatWhile step fuel) := by
    intro fuel
    induction fuel with
    | zero => exact keeps_throw _
    | succ fuel ih =>
        refine h.bind fun again => ?_
        cases again with
        | true => exact ih
        | false => exact keeps_pure ()
  exact keeps_get_bind fun n hn => hrepeat _ n hn

section Bodies

variable (source : RowSource) (condition : CodeExpr) (body : List Statement)

/-- Runs statements in a scope of their own if a condition holds, and answers whether it does. -/
def guarded : Run Bool := do
  if (← eval condition).isTrue then
    inScope (execAll source body)
    pure true
  else pure false

/-- Every round of a loop gives the body a scope of its own. -/
theorem exec_whileDo :
    (Statement.whileDo condition body).exec source = loop (guarded source condition body) := by
  rw [Statement.exec]
  rfl

variable {source body} (hbody : ∀ m : Machine, Keeps m.Surrounds (execAll source body))

include hbody

theorem steady_guarded : Steady (guarded source condition body) := by
  refine (steady_eval condition).bind fun x => ?_
  cases x.isTrue with
  | true => exact (steady_inScope hbody).bind fun _ => steady_pure true
  | false => exact steady_pure false

/-- Loops change nothing but cursors. -/
theorem steady_whileDo : Steady ((Statement.whileDo condition body).exec source) := by
  rw [exec_whileDo]
  exact fun m => keeps_loop (steady_guarded condition hbody m)

/-- A branch gives the body a scope of its own. -/
theorem steady_ifThen : Steady ((Statement.ifThen condition body).exec source) := by
  refine (steady_eval condition).bind fun x => ?_
  cases x.isTrue with
  | true => exact steady_inScope hbody
  | false => exact steady_pure ()

end Bodies

end Machine

mutual

/-- A statement changes nothing but cursors outside of the innermost scope. -/
theorem Statement.keeps_surrounds_exec (source : RowSource) (m : Machine) :
    ∀ s : Statement, Keeps m.Surrounds (s.exec source)
  | .assign v value =>
      ((Machine.steady_eval value).surrounds m).bind fun _ => Machine.keeps_surrounds_bind m v _
  | .openCursor cursor _ =>
      (keeps_lift _).bind fun _ => Machine.keeps_surrounds_bind m cursor _
  | .whileDo condition body =>
      (Machine.steady_whileDo condition fun n =>
        keeps_surrounds_execAll source n body).surrounds m
  | .ifThen condition body =>
      (Machine.steady_ifThen condition fun n =>
        keeps_surrounds_execAll source n body).surrounds m
  | .hole => keeps_throw _
  | .emit row =>
      ((Machine.steady_eval row).surrounds m).bind fun _ => (Machine.steady_emit _).surrounds m

/-- Statements change nothing but cursors outside of the innermost scope. -/
theorem keeps_surrounds_execAll (source : RowSource) (m : Machine) :
    ∀ program : List Statement, Keeps m.Surrounds (execAll source program)
  | [] => keeps_pure _
  | s :: rest =>
      (s.keeps_surrounds_exec source m).bind fun _ => keeps_surrounds_execAll source m rest

end

/-- Code that runs in a scope of its own, to its end or until something fails at any depth, leaves as
many scopes as there were, with the same variables in each of them, which hold the same values or
what is left of the same cursors. So a variable that a loop or a branch binds cannot be seen
afterwards: every variable that is looked up then holds what it held before, or is as unbound. -/
theorem scopes_balanced (source : RowSource) (program : List Statement) (m : Machine) :
    m.Advances ((Machine.inScope (execAll source program)).run.run m).2 ∧
    ((Machine.inScope (execAll source program)).run.run m).2.scopes.map (List.map Prod.fst) =
      m.scopes.map (List.map Prod.fst) ∧
    ∀ condition, ∀ s ∈ [Statement.whileDo condition program, Statement.ifThen condition program],
      ∀ v, Option.Rel Slot.Advances (Machine.lookup m.scopes v)
        (Machine.lookup ((s.exec source).run.run m).2.scopes v) := by
  have hprogram := fun n => keeps_surrounds_execAll source n program
  have hscope := Machine.steady_iff.mp (Machine.steady_inScope hprogram) m
  refine ⟨hscope, hscope.variables_eq, fun condition s hs v => Machine.lookup_advances ?_ v⟩
  have hsteady : Machine.Steady (s.exec source) := by
    rcases List.mem_pair.mp hs with rfl | rfl
    · exact Machine.steady_whileDo condition hprogram
    · exact Machine.steady_ifThen condition hprogram
  exact (Machine.steady_iff.mp hsteady m).scopes

/-- A machine with a cursor on two rows. -/
def Machine.onTwoRows : Machine where
  scopes := [[(⟨0⟩, .cursor (.ofRows [[.int 1], [.int 2]]))]]

/-- A loop that binds the rows of the cursor one after the other, and asks for one too many. -/
def untilExhausted : Statement := .whileDo (.literal (.bool true)) [.assign ⟨1⟩ (.next ⟨0⟩)]

/-- Where the loop fails, what it bound cannot be seen any more, and the cursor is still there. -/
theorem scopes_balanced_onTwoRows :
    Fails (untilExhausted.exec (.ofTables [])) Machine.onTwoRows (.exhaustedCursor ⟨0⟩) ∧
      Machine.lookup ((untilExhausted.exec (.ofTables [])).run.run Machine.onTwoRows).2.scopes ⟨1⟩ =
        none ∧
      ∃ c, Machine.lookup ((untilExhausted.exec (.ofTables [])).run.run Machine.onTwoRows).2.scopes ⟨0⟩
          = some (.cursor c) ∧ (Cursor.ofRows [[.int 1], [.int 2]]).Advances c := by
  have hlookup := (scopes_balanced (.ofTables []) [.assign ⟨1⟩ (.next ⟨0⟩)] Machine.onTwoRows).2.2
    (.literal (.bool true)) untilExhausted List.mem_cons_self
  exact ⟨fails_iff.mpr (by rfl), Slot.eq_none_of_rel (hlookup ⟨1⟩),
    Slot.exists_cursor_of_rel (hlookup ⟨0⟩)⟩

end QueryPlanner
