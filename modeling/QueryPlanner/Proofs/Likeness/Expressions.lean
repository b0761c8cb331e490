/-
# Expressions that are alike

Expressions that are the same up to the sign of zeros, on rows that are, end alike whatever the
convention they are evaluated in, unless a division that they come to tells its divisors apart.

* `Expr.tellsApart` : whether evaluating two expressions comes to such a division;
* `AlikeUpTo` : outcomes of operands that are alike as far as they are looked at;
* `endAlike_outcome` : other expressions that are alike end alike on rows that are.
-/
import QueryPlanner.Proofs.Likeness
import QueryPlanner.Proofs.Plan.Answers

namespace QueryPlanner

open Scalar

/-! ## Evaluation in a convention -/

namespace Convention

variable (c : Convention) (row : Row)

/-- Whether an operand of a conjunction, where `unit` is TRUE, or of a disjunction, where it is
FALSE, is the last one that a convention evaluates. -/
def stopsAt (unit : Bool) (v : Scalar) : Bool := c == .iterator && v.settles unit

theorem stopsAt_of_ne {c : Convention} (hc : c ≠ .iterator) (unit : Bool) :
    c.stopsAt unit = fun _ => false := by
  funext v
  unfold stopsAt
  rw [beq_false_of_ne hc, Bool.false_and]

theorem outcome_column (k : Column) : c.outcome row (.column k) = (Expr.column k).eval row := by
  unfold outcome
  split <;> rfl

theorem outcome_literal (v : Scalar) : c.outcome row (.literal v) = .ok v := by
  unfold outcome
  split <;> rfl

theorem outcome_binary (op : BinaryOp) (l r : Expr) : c.outcome row (.binary op l r) =
    (c.outcome row l >>= fun a => c.outcome row r >>= fun b => Scalar.binary op a b) := by
  by_cases hc : c = .iterator
  · subst hc
    rw [outcome_iterator, Expr.eval]
  · rw [outcome_of_ne hc]
    exact Expr.evalWhole_binary row op l r

theorem outcome_unary (op : UnaryOp) (e : Expr) : c.outcome row (.unary op e) =
    (c.outcome row e >>= fun a => Scalar.unary op a) := by
  by_cases hc : c = .iterator
  · subst hc
    rw [outcome_iterator, Expr.eval]
  · rw [outcome_of_ne hc]
    exact Expr.evalWhole_unary row op e

theorem outcome_call (name : String) (args : List Expr) : c.outcome row (.call name args) =
    ((args.map (c.outcome row)).mapM id >>= fun vs => Scalar.call name vs) := by
  by_cases hc : c = .iterator
  · subst hc
    rw [outcome_iterator, Expr.eval, Expr.evalList_eq]
  · rw [outcome_of_ne hc, List.mapM_map]
    exact Expr.evalWhole_call row name args

theorem outcome_and_iterator (es : List Expr) : iterator.outcome row (.and es) =
    conjunction (es.map (iterator.outcome row)) := by
  rw [outcome_iterator, Expr.eval, Expr.evalList_eq]

theorem outcome_or_iterator (es : List Expr) : iterator.outcome row (.or es) =
    disjunction (es.map (iterator.outcome row)) := by
  rw [outcome_iterator, Expr.eval, Expr.evalList_eq]

variable {c}

theorem outcome_and (hc : c ≠ .iterator) (es : List Expr) : c.outcome row (.and es) =
    ((es.map (c.outcome row)).mapM id >>= fun vs => conjunction (vs.map .ok)) := by
  rw [outcome_of_ne hc, List.mapM_map]
  exact Expr.evalWhole_and row es

theorem outcome_or (hc : c ≠ .iterator) (es : List Expr) : c.outcome row (.or es) =
    ((es.map (c.outcome row)).mapM id >>= fun vs => disjunction (vs.map .ok)) := by
  rw [outcome_of_ne hc, List.mapM_map]
  exact Expr.evalWhole_or row es

end Convention

/-! ## Operands -/

/-- Outcomes of operands are alike as far as they are looked at, which is up to the first value at
which whoever does so stops. -/
inductive AlikeUpTo (stops : Scalar → Bool) : List Outcome → List Outcome → Prop
  | nil : AlikeUpTo stops [] []
  | cons {x y : Outcome} {xs ys : List Outcome} (h : EndAlike Like x y)
      (hrest : ∀ v, x = .ok v → stops v = false → AlikeUpTo stops xs ys) :
      AlikeUpTo stops (x :: xs) (y :: ys)

namespace AlikeUpTo

variable {stops : Scalar → Bool} {xs ys : List Outcome}

theorem of_forall₂ {vs ws : List Scalar} (h : List.Forall₂ Like vs ws) :
    AlikeUpTo stops (vs.map .ok) (ws.map .ok) := by
  induction h with
  | nil => exact .nil
  | cons hv _ ih => exact .cons (.ok hv) fun _ _ _ => ih

/-- Values that are all asked for. -/
theorem mapM (h : AlikeUpTo (fun _ => false) xs ys) :
    EndAlike (List.Forall₂ Like) (xs.mapM id) (ys.mapM id) := by
  induction h with
  | nil => exact .ok .nil
  | cons hx _ ih =>
      rw [List.mapM_cons, List.mapM_cons]
      exact hx.bind fun v w hv _ hlike => (ih v hv rfl).bind fun vs ws _ _ hall =>
        .ok (.cons hlike hall)

/-- What a combination of operands that goes through them from left to right makes of operands that
are alike. `combine a` is the combination after some operands, `a` being what they have come to. -/
theorem endAlike_combine {unit : Bool} {τ : Type} {combine : τ → List Outcome → Outcome}
    (herror : ∀ a e rest, combine a (.error e :: rest) = .error e)
    (hstop : ∀ a v rest rest', v.settles unit = true →
      combine a (.ok v :: rest) = combine a (.ok v :: rest'))
    (hgo : ∀ a v, v.settles unit = false →
      ∃ b, ∀ rest, combine a (.ok v :: rest) = combine b rest)
    (hfloat : ∀ a x y rest rest', Like (float x) (float y) →
      EndAlike Like (combine a (.ok (float x) :: rest)) (combine a (.ok (float y) :: rest')))
    (h : AlikeUpTo (settles unit) xs ys) (a : τ) : EndAlike Like (combine a xs) (combine a ys) := by
  induction h generalizing a with
  | nil => exact .refl Like.refl _
  | @cons x y xs ys hx _ ih =>
      cases hx with
      | error h =>
          rw [herror, herror]
          exact .error h
      | @ok v w hlike =>
          -- floats are no truth values, and all other values are the same
          rcases hlike.eq_or_floats with rfl | ⟨x, y, rfl, rfl, -⟩
          · cases hs : v.settles unit with
            | true =>
                rw [hstop a v xs ys hs]
                exact .refl Like.refl _
            | false =>
                obtain ⟨b, hb⟩ := hgo a v hs
                rw [hb, hb]
                exact ih v rfl hs b
          · exact hfloat a x y xs ys hlike

theorem endAlike_conjunction (h : AlikeUpTo (settles true) xs ys) :
    EndAlike Like (conjunction xs) (conjunction ys) :=
  endAlike_combine (fun _ _ _ => rfl) allOf_of_settles allOf_of_not_settles
    (fun _ _ _ _ _ hlike => endAlike_mismatch "AND" (.cons hlike .nil)) h false

theorem endAlike_disjunction (h : AlikeUpTo (settles false) xs ys) :
    EndAlike Like (disjunction xs) (disjunction ys) :=
  endAlike_combine (fun _ _ _ => rfl) anyOf_of_settles anyOf_of_not_settles
    (fun _ _ _ _ _ hlike => endAlike_mismatch "OR" (.cons hlike .nil)) h false

end AlikeUpTo

/-! ## Expressions -/

namespace Expr

mutual

/-- Whether evaluating two expressions, each on its row, comes to a division that tells its divisors
apart. -/
def tellsApart (c : Convention) (row row' : Row) : Expr → Expr → Bool
  | binary op l r, binary _ l' r' =>
      tellsApart c row row' l l' ||
        match c.outcome row l with
        | .error _ => false
        | .ok a =>
            tellsApart c row row' r r' ||
              match c.outcome row r, c.outcome row' r' with
              | .ok b, .ok b' => Scalar.tellsApart op a b b'
              | _, _ => false
  | unary _ e, unary _ e' => tellsApart c row row' e e'
  | call _ args, call _ args' => tellsApartIn c row row' (fun _ => false) args args'
  | and es, and es' => tellsApartIn c row row' (c.stopsAt true) es es'
  | or es, or es' => tellsApartIn c row row' (c.stopsAt false) es es'
  | _, _ => false

/-- `tellsApart` for operands one after another, up to the first value to stop at. -/
def tellsApartIn (c : Convention) (row row' : Row) (stops : Scalar → Bool) :
    List Expr → List Expr → Bool
  | e :: es, e' :: es' =>
      tellsApart c row row' e e' ||
        match c.outcome row e with
        | .error _ => false
        | .ok v => !stops v && tellsApartIn c row row' stops es es'
  | _, _ => false

end

variable {c : Convention} {row row' : Row}

/-- Operands that are alike end alike as far as they are looked at, if each of them does. -/
theorem alikeUpTo_of_not_tellsApartIn {stops : Scalar → Bool} {es es' : List Expr}
    (hes : canonicalList es = canonicalList es')
    (h : tellsApartIn c row row' stops es es' = false)
    (heach : ∀ e ∈ es, ∀ e', e.canonical = e'.canonical → e.tellsApart c row row' e' = false →
      EndAlike Like (c.outcome row e) (c.outcome row' e')) :
    AlikeUpTo stops (es.map (c.outcome row)) (es'.map (c.outcome row')) := by
  induction es generalizing es' with
  | nil =>
      cases es' with
      | nil => exact .nil
      | cons e' es' => cases hes
  | cons e es ih =>
      cases es' with
      | nil => cases hes
      | cons e' es' =>
          obtain ⟨he, hes⟩ := List.cons.inj hes
          obtain ⟨hhead, htail⟩ := List.forall_mem_cons.mp heach
          rw [tellsApartIn, Bool.or_eq_false_iff] at h
          refine .cons (hhead e' he h.1) fun v hv hgo => ih hes ?_ htail
          simpa only [hv, hgo, Bool.not_false, Bool.true_and] using h.2

/-- Columns at the same place of rows that are alike. -/
theorem endAlike_column (hrow : List.Forall₂ Like row row') (k : Column) :
    EndAlike Like ((column k).eval row) ((column k).eval row') := by
  have hlength := hrow.length_eq
  unfold eval
  by_cases hlt : k.index < row.length
  · rw [List.getElem?_eq_getElem hlt, List.getElem?_eq_getElem (hlength ▸ hlt)]
    exact .ok (hrow.get hlt (hlength ▸ hlt))
  · rw [List.getElem?_eq_none (Nat.le_of_not_lt hlt),
      List.getElem?_eq_none (hlength ▸ Nat.le_of_not_lt hlt), hlength]
    exact .error rfl

mutual

/-- Expressions that are alike end alike on rows that are, if they come to no division that tells
its divisors apart. -/
theorem endAlike_outcome (hrow : List.Forall₂ Like row row') : ∀ e e' : Expr,
    e.canonical = e'.canonical → e.tellsApart c row row' e' = false →
      EndAlike Like (c.outcome row e) (c.outcome row' e')
  | column k, e', he, _ => by
      cases e' <;> cases he
      rw [Convention.outcome_column, Convention.outcome_column]
      exact endAlike_column hrow k
  | literal v, e', he, _ => by
      cases e' with
      | literal w =>
        rw [Convention.outcome_literal, Convention.outcome_literal]
        exact .ok (literal.inj he)
      | _ => cases he
  | binary op l r, e', he, h => by
      cases e' with
      | binary op' l' r' =>
        obtain ⟨rfl, hl, hr⟩ := binary.inj he
        rw [tellsApart, Bool.or_eq_false_iff] at h
        rw [Convention.outcome_binary, Convention.outcome_binary]
        refine (endAlike_outcome hrow l l' hl h.1).bind fun a a' ha _ hlike => ?_
        have hright := h.2
        simp only [ha, Bool.or_eq_false_iff] at hright
        refine (endAlike_outcome hrow r r' hr hright.1).bind fun b b' hb hb' hlike' => ?_
        have hapart := hright.2
        simp only [hb, hb'] at hapart
        exact (endAlike_binary_iff hlike hlike').mpr hapart
      | _ => cases he
  | unary op e, e', he, h => by
      cases e' with
      | unary op' e' =>
        obtain ⟨rfl, hoperand⟩ := unary.inj he
        rw [Convention.outcome_unary, Convention.outcome_unary]
        exact (endAlike_outcome hrow e e' hoperand h).bind fun _ _ _ _ hlike =>
          endAlike_unary op hlike
      | _ => cases he
  | call name args, e', he, h => by
      cases e' with
      | call name' args' =>
        obtain ⟨rfl, hargs⟩ := call.inj he
        rw [Convention.outcome_call, Convention.outcome_call]
        have hall := alikeUpTo_of_not_tellsApartIn hargs h (endAlike_outcomes hrow args)
        exact hall.mapM.bind fun _ _ _ _ hlike => endAlike_call name hlike
      | _ => cases he
  | and es, e', he, h => by
      cases e' with
      | and es' =>
        have hall := alikeUpTo_of_not_tellsApartIn (and.inj he) h (endAlike_outcomes hrow es)
        by_cases hc : c = .iterator
        · subst hc
          rw [Convention.outcome_and_iterator, Convention.outcome_and_iterator]
          exact hall.endAlike_conjunction
        · rw [Convention.outcome_and row hc, Convention.outcome_and row' hc]
          rw [Convention.stopsAt_of_ne hc] at hall
          exact hall.mapM.bind fun _ _ _ _ hlike =>
            (AlikeUpTo.of_forall₂ hlike).endAlike_conjunction
      | _ => cases he
  | or es, e', he, h => by
      cases e' with
      | or es' =>
        have hall := alikeUpTo_of_not_tellsApartIn (or.inj he) h (endAlike_outcomes hrow es)
        by_cases hc : c = .iterator
        · subst hc
          rw [Convention.outcome_or_iterator, Convention.outcome_or_iterator]
          exact hall.endAlike_disjunction
        · rw [Convention.outcome_or row hc, Convention.outcome_or row' hc]
          rw [Convention.stopsAt_of_ne hc] at hall
          exact hall.mapM.bind fun _ _ _ _ hlike =>
            (AlikeUpTo.of_forall₂ hlike).endAlike_disjunction
      | _ => cases he

/-- `endAlike_outcome` for every expression of a list. -/
theorem endAlike_outcomes (hrow : List.Forall₂ Like row row') : ∀ es : List Expr, ∀ e ∈ es,
    ∀ e' : Expr, e.canonical = e'.canonical → e.tellsApart c row row' e' = false →
      EndAlike Like (c.outcome row e) (c.outcome row' e')
  | [] => nofun
  | e :: es => List.forall_mem_cons.mpr ⟨endAlike_outcome hrow e, endAlike_outcomes hrow es⟩

end

/-- Expressions that are evaluated one after another. -/
theorem endAlike_mapM (hrow : List.Forall₂ Like row row') {es es' : List Expr}
    (hes : canonicalList es = canonicalList es')
    (h : tellsApartIn c row row' (fun _ => false) es es' = false) :
    EndAlike (List.Forall₂ Like) (es.mapM (c.outcome row)) (es'.mapM (c.outcome row')) := by
  have hall := (alikeUpTo_of_not_tellsApartIn hes h (endAlike_outcomes hrow es)).mapM
  rw [List.mapM_map, List.mapM_map] at hall
  exact hall

end Expr

end QueryPlanner
