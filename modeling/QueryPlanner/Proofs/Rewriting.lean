/-
# Rewritten expressions

The rules rewrite expressions in two ways. Moving columns and inlining both put something in
the place of every column, and the result has the value that the expression has over the
values of what was put there. Predicates are taken apart into conjuncts and put together
again; what is left out or flattened on the way changes no outcome.

* `eval_substitute`, `Evaluates.substitute` : what a substitution evaluates to;
* `inline_eq_substitute`, `mapColumns_eq_substitute` : inlining and moving are substitutions;
* `Conjoins` : predicates whose conjunction is as good as one predicate;
* `HasType.conjunction` : the conjunction of the conjuncts of two predicates holds where both
  hold.
-/
import QueryPlanner.Proofs.Typing
import QueryPlanner.Rule.Transformation

namespace QueryPlanner

namespace Expr

variable {row vals : Row} {e : Expr} {σ : Column → Expr}

/-! ## Substitutions -/

mutual

/-- Puts an expression in the place of every column. -/
def substitute (σ : Column → Expr) : Expr → Expr
  | column c => σ c
  | literal v => literal v
  | binary op l r => binary op (l.substitute σ) (r.substitute σ)
  | unary op e => unary op (e.substitute σ)
  | call name args => call name (substituteList σ args)
  | and es => and (substituteList σ es)
  | or es => or (substituteList σ es)

/-- `substitute` for every expression of a list. -/
def substituteList (σ : Column → Expr) : List Expr → List Expr
  | [] => []
  | e :: es => e.substitute σ :: substituteList σ es

end

theorem substituteList_eq (σ : Column → Expr) (es : List Expr) :
    substituteList σ es = es.map (substitute σ) := by
  induction es with
  | nil => rfl
  | cons e es ih => simp [substituteList, ih]

mutual

/-- Moving columns puts the moved columns in their place. -/
theorem mapColumns_eq_substitute (f : Nat → Nat) : ∀ e : Expr,
    e.mapColumns f = e.substitute fun c => column { c with index := f c.index }
  | column _ => rfl
  | literal _ => rfl
  | binary _ l r => by
      rw [mapColumns, substitute, mapColumns_eq_substitute f l, mapColumns_eq_substitute f r]
  | unary _ e => by rw [mapColumns, substitute, mapColumns_eq_substitute f e]
  | call _ args => by rw [mapColumns, substitute, mapColumnsList_eq_substituteList f args]
  | and es => by rw [mapColumns, substitute, mapColumnsList_eq_substituteList f es]
  | or es => by rw [mapColumns, substitute, mapColumnsList_eq_substituteList f es]

theorem mapColumnsList_eq_substituteList (f : Nat → Nat) : ∀ es : List Expr,
    mapColumnsList f es = substituteList (fun c => column { c with index := f c.index }) es
  | [] => rfl
  | e :: es => by
      rw [mapColumnsList, substituteList, mapColumns_eq_substitute f e,
        mapColumnsList_eq_substituteList f es]

end

/-- What inlining puts in the place of a column. -/
def inlined (inner : List Expr) (c : Column) : Expr := inner[c.index]?.getD (column c)

mutual

/-- Inlining, where it succeeds, puts the inner expressions in the place of the columns, all of
which are in range. -/
theorem inline_eq_substitute (inner : List Expr) : ∀ {e e' : Expr}, e.inline inner = some e' →
    e' = e.substitute (inlined inner) ∧ ∀ c ∈ e.columns, c.index < inner.length
  | column c, e', h => by
      rw [inline] at h
      obtain ⟨hlt, rfl⟩ := List.getElem?_eq_some_iff.mp h
      refine ⟨?_, fun c' hc' => ?_⟩
      · rw [substitute, inlined, h]
        rfl
      · rw [columns, List.mem_singleton] at hc'
        rw [hc']
        exact hlt
  | literal _, _, rfl => ⟨rfl, fun c hc => absurd hc List.not_mem_nil⟩
  | binary _ l r, e', h => by
      obtain ⟨l', hl, h⟩ := Option.bind_eq_some_iff.mp h
      obtain ⟨r', hr, h⟩ := Option.bind_eq_some_iff.mp h
      cases h
      obtain ⟨rfl, hlc⟩ := inline_eq_substitute inner hl
      obtain ⟨rfl, hrc⟩ := inline_eq_substitute inner hr
      refine ⟨rfl, fun c hc => ?_⟩
      exact (List.mem_append.mp hc).elim (hlc c) (hrc c)
  | unary _ e, e', h => by
      obtain ⟨x, hx, h⟩ := Option.bind_eq_some_iff.mp h
      cases h
      obtain ⟨rfl, hc⟩ := inline_eq_substitute inner hx
      exact ⟨rfl, hc⟩
  | call _ args, e', h => by
      obtain ⟨xs, hxs, h⟩ := Option.bind_eq_some_iff.mp h
      cases h
      obtain ⟨rfl, hc⟩ := inlineList_eq_substituteList inner hxs
      exact ⟨rfl, hc⟩
  | and es, e', h => by
      obtain ⟨xs, hxs, h⟩ := Option.bind_eq_some_iff.mp h
      cases h
      obtain ⟨rfl, hc⟩ := inlineList_eq_substituteList inner hxs
      exact ⟨rfl, hc⟩
  | or es, e', h => by
      obtain ⟨xs, hxs, h⟩ := Option.bind_eq_some_iff.mp h
      cases h
      obtain ⟨rfl, hc⟩ := inlineList_eq_substituteList inner hxs
      exact ⟨rfl, hc⟩

theorem inlineList_eq_substituteList (inner : List Expr) : ∀ {es es' : List Expr},
    inlineList inner es = some es' →
      es' = substituteList (inlined inner) es ∧ ∀ c ∈ columnsOfList es, c.index < inner.length
  | [], _, rfl => ⟨rfl, fun c hc => absurd hc List.not_mem_nil⟩
  | e :: es, es', h => by
      obtain ⟨x, hx, h⟩ := Option.bind_eq_some_iff.mp h
      obtain ⟨xs, hxs, h⟩ := Option.bind_eq_some_iff.mp h
      cases h
      obtain ⟨rfl, hc⟩ := inline_eq_substitute inner hx
      obtain ⟨rfl, hcs⟩ := inlineList_eq_substituteList inner hxs
      refine ⟨rfl, fun c hmem => ?_⟩
      exact (List.mem_append.mp hmem).elim (hc c) (hcs c)

end

mutual

/-- A substitution evaluates as the expression does where what is put in the place of the
columns evaluates as they do. -/
theorem eval_substitute : ∀ e : Expr,
    (∀ c ∈ e.columns, (σ c).eval row = (column c).eval vals) →
      (e.substitute σ).eval row = e.eval vals
  | column c, h => h c (List.mem_singleton_self c)
  | literal _, _ => rfl
  | binary op l r, h => by
      rw [substitute, eval, eval, eval_substitute l fun c hc => h c (List.mem_append_left _ hc),
        eval_substitute r fun c hc => h c (List.mem_append_right _ hc)]
  | unary _ e, h => by rw [substitute, eval, eval, eval_substitute e h]
  | call _ args, h => by rw [substitute, eval, eval, evalList_substituteList args h]
  | and es, h => by rw [substitute, eval, eval, evalList_substituteList es h]
  | or es, h => by rw [substitute, eval, eval, evalList_substituteList es h]

theorem evalList_substituteList : ∀ es : List Expr,
    (∀ c ∈ columnsOfList es, (σ c).eval row = (column c).eval vals) →
      evalList row (substituteList σ es) = evalList vals es
  | [], _ => rfl
  | e :: es, h => by
      rw [substituteList, evalList, evalList,
        eval_substitute e fun c hc => h c (List.mem_append_left _ hc),
        evalList_substituteList es fun c hc => h c (List.mem_append_right _ hc)]

end

/-- What is put in the place of the columns evaluates, and as they do. -/
def Supplies (row vals : Row) (σ : Column → Expr) (c : Column) : Prop :=
  (σ c).Evaluates row ∧ (σ c).eval row = (column c).eval vals

mutual

/-- All parts of a substitution have values where those of the expression have, and those of
what is put in the place of the columns. -/
theorem evaluates_substitute : ∀ e : Expr, (∀ c ∈ e.columns, Supplies row vals σ c) →
    e.Evaluates vals → (e.substitute σ).Evaluates row
  | column c, h, _ => (h c (List.mem_singleton_self c)).1
  | literal v, _, _ => evaluates_literal v
  | binary op l r, h, he => by
      obtain ⟨hv, hl, hr⟩ := evaluates_binary.mp he
      have hsub := eval_substitute (binary op l r) fun c hc => (h c hc).2
      refine evaluates_binary.mpr ⟨by rwa [← hsub] at hv, ?_, ?_⟩
      · exact evaluates_substitute l (fun c hc => h c (List.mem_append_left _ hc)) hl
      · exact evaluates_substitute r (fun c hc => h c (List.mem_append_right _ hc)) hr
  | unary op e, h, he => by
      obtain ⟨hv, hin⟩ := evaluates_unary.mp he
      have hsub := eval_substitute (unary op e) fun c hc => (h c hc).2
      exact evaluates_unary.mpr ⟨by rwa [← hsub] at hv, evaluates_substitute e h hin⟩
  | call name args, h, he => by
      obtain ⟨hv, hin⟩ := evaluates_call.mp he
      have hsub := eval_substitute (call name args) fun c hc => (h c hc).2
      exact evaluates_call.mpr ⟨by rwa [← hsub] at hv, evaluates_substituteList args h hin⟩
  | and es, h, he => by
      obtain ⟨hv, hin⟩ := evaluates_and.mp he
      have hsub := eval_substitute (and es) fun c hc => (h c hc).2
      exact evaluates_and.mpr ⟨by rwa [← hsub] at hv, evaluates_substituteList es h hin⟩
  | or es, h, he => by
      obtain ⟨hv, hin⟩ := evaluates_or.mp he
      have hsub := eval_substitute (or es) fun c hc => (h c hc).2
      exact evaluates_or.mpr ⟨by rwa [← hsub] at hv, evaluates_substituteList es h hin⟩

theorem evaluates_substituteList : ∀ es : List Expr,
    (∀ c ∈ columnsOfList es, Supplies row vals σ c) → (∀ e ∈ es, e.Evaluates vals) →
      ∀ e ∈ substituteList σ es, e.Evaluates row
  | [], _, _ => fun e he => absurd he List.not_mem_nil
  | e :: es, h, he => by
      obtain ⟨hhead, hrest⟩ := List.forall_mem_cons.mp he
      rw [substituteList]
      refine List.forall_mem_cons.mpr ⟨?_, ?_⟩
      · exact evaluates_substitute e (fun c hc => h c (List.mem_append_left _ hc)) hhead
      · exact evaluates_substituteList es (fun c hc => h c (List.mem_append_right _ hc)) hrest

end

theorem value_substitute (h : ∀ c ∈ e.columns, Supplies row vals σ c) :
    (e.substitute σ).value row = e.value vals := by
  unfold value
  rw [eval_substitute e fun c hc => (h c hc).2]

/-- A typed expression keeps its type under a substitution that supplies the rows it is typed
for. -/
theorem HasType.substitute {t t' : RowType} {type : DataType} (he : e.HasType t type)
    (h : ∀ row, t'.Admits row → ∃ vals, t.Admits vals ∧ ∀ c ∈ e.columns, Supplies row vals σ c) :
    (e.substitute σ).HasType t' type := by
  intro row hrow
  obtain ⟨vals, hvals, hsupplies⟩ := h row hrow
  refine ⟨evaluates_substitute e hsupplies (he.evaluates hvals), ?_⟩
  rw [value_substitute hsupplies]
  exact he.admits hvals

mutual

/-- A substitution stands for itself if the expression does and what is put in its columns. -/
theorem canonical_substitute : ∀ e : Expr, e.canonical = e →
    (∀ c ∈ e.columns, (σ c).canonical = σ c) → (e.substitute σ).canonical = e.substitute σ
  | column c, _, h => h c (List.mem_singleton_self c)
  | literal _, he, _ => he
  | binary _ l r, he, h => by
      simp only [canonical, binary.injEq, true_and] at he
      rw [substitute, canonical,
        canonical_substitute l he.1 fun c hc => h c (List.mem_append_left _ hc),
        canonical_substitute r he.2 fun c hc => h c (List.mem_append_right _ hc)]
  | unary _ e, he, h => by
      simp only [canonical, unary.injEq, true_and] at he
      rw [substitute, canonical, canonical_substitute e he h]
  | call _ args, he, h => by
      simp only [canonical, call.injEq, true_and] at he
      rw [substitute, canonical, canonicalList_substituteList args he h]
  | and es, he, h => by
      simp only [canonical, and.injEq] at he
      rw [substitute, canonical, canonicalList_substituteList es he h]
  | or es, he, h => by
      simp only [canonical, or.injEq] at he
      rw [substitute, canonical, canonicalList_substituteList es he h]

theorem canonicalList_substituteList : ∀ es : List Expr, canonicalList es = es →
    (∀ c ∈ columnsOfList es, (σ c).canonical = σ c) →
      canonicalList (substituteList σ es) = substituteList σ es
  | [], _, _ => rfl
  | e :: es, he, h => by
      simp only [canonicalList, List.cons.injEq] at he
      rw [substituteList, canonicalList,
        canonical_substitute e he.1 fun c hc => h c (List.mem_append_left _ hc),
        canonicalList_substituteList es he.2 fun c hc => h c (List.mem_append_right _ hc)]

end

/-- Inner expressions that evaluate supply the row of their values. -/
theorem supplies_inlined {inner : List Expr} (h : ∀ e ∈ inner, e.Evaluates row) {c : Column}
    (hc : c.index < inner.length) : Supplies row (inner.map (value row)) (inlined inner) c := by
  have hmem : inner[c.index] ∈ inner := List.getElem_mem hc
  unfold Supplies inlined
  rw [List.getElem?_eq_getElem hc, Option.getD_some, eval, List.getElem?_map,
    List.getElem?_eq_getElem hc]
  exact ⟨h _ hmem, (h _ hmem).eval⟩

/-- A column supplies what stands at its old place, if that stands at its new one. -/
theorem supplies_moved {f : Nat → Nat} {c : Column} (hc : c.index < vals.length)
    (hf : row[f c.index]? = vals[c.index]?) :
    Supplies row vals (fun c => column { c with index := f c.index }) c := by
  rw [List.getElem?_eq_getElem hc] at hf
  unfold Supplies
  rw [evaluates_column, eval, eval, hf, List.getElem?_eq_getElem hc]
  exact ⟨(List.getElem?_eq_some_iff.mp hf).1, rfl⟩

/-! ## Conjunctions -/

/-- The conjunction of operands can take the place of an operand. -/
theorem allOf_cons_allOf (missing seen : Bool) (inner rest : List Scalar.Outcome) :
    Scalar.allOf missing (Scalar.allOf seen inner :: rest) =
      Scalar.allOf (missing || seen) (inner ++ rest) := by
  induction inner generalizing missing seen with
  | nil => cases missing <;> cases seen <;> rfl
  | cons o inner ih =>
      rcases o with x | v
      · rfl
      · cases v with
        | null =>
            rw [List.cons_append, Scalar.allOf, Scalar.allOf, ih, Bool.or_true]
        | bool b =>
            cases b with
            | false => rfl
            | true => rw [List.cons_append, Scalar.allOf, Scalar.allOf, ih]
        | _ => rfl

theorem evalList_append (row : Row) (es es' : List Expr) :
    evalList row (es ++ es') = evalList row es ++ evalList row es' := by
  rw [evalList_eq, evalList_eq, evalList_eq, List.map_append]

/-- Predicates that a conjunction can go through in place of one predicate. All their parts have
values where those of the predicate have. -/
structure Conjoins (es : List Expr) (e : Expr) : Prop where
  allOf : ∀ row missing rest, Scalar.allOf missing (evalList row es ++ rest) =
    Scalar.allOf missing (e.eval row :: rest)
  evaluates : ∀ row, e.Evaluates row → ∀ part ∈ es, part.Evaluates row
  canonical : e.canonical = e → ∀ part ∈ es, part.canonical = part

/-- The flattened operands of a list are as good as its operands. -/
theorem allOf_conjunctsOfList {es : List Expr} (h : ∀ e ∈ es, Conjoins e.conjuncts e) (row : Row)
    (missing : Bool) (rest : List Scalar.Outcome) :
    Scalar.allOf missing (evalList row (conjunctsOfList es) ++ rest) =
      Scalar.allOf missing (evalList row es ++ rest) := by
  induction es generalizing missing with
  | nil => rfl
  | cons e es ih =>
      obtain ⟨he, hes⟩ := List.forall_mem_cons.mp h
      rw [conjunctsOfList, evalList_append, List.append_assoc, he.allOf, evalList,
        List.cons_append]
      rcases e.eval row with x | v
      · rfl
      · cases hs : v.settles true with
        | true => exact Scalar.allOf_of_settles missing v _ _ hs
        | false =>
            obtain ⟨missing', hgo⟩ := Scalar.allOf_of_not_settles missing v hs
            rw [hgo, hgo, ih hes]

theorem canonicalList_eq_self {es : List Expr} :
    canonicalList es = es ↔ ∀ e ∈ es, e.canonical = e := by
  induction es with
  | nil => simp [canonicalList]
  | cons e es ih => rw [canonicalList, List.cons.injEq, ih, List.forall_mem_cons]

/-- Inlined expressions stand for themselves if the inner and the outer ones do. -/
theorem canonical_of_inlineList {inner outer merged : List Expr}
    (h : inlineList inner outer = some merged) (hinner : ∀ e ∈ inner, e.canonical = e)
    (houter : ∀ e ∈ outer, e.canonical = e) : ∀ e ∈ merged, e.canonical = e := by
  obtain ⟨rfl, hcolumns⟩ := inlineList_eq_substituteList inner h
  refine canonicalList_eq_self.mp (canonicalList_substituteList outer
    (canonicalList_eq_self.mpr houter) fun c hc => ?_)
  have hlt := hcolumns c hc
  rw [inlined, List.getElem?_eq_getElem hlt, Option.getD_some]
  exact hinner _ (List.getElem_mem hlt)

/-- An expression that is no conjunction is its own only conjunct. -/
theorem conjoins_singleton (e : Expr) : Conjoins [e] e where
  allOf _ _ _ := rfl
  evaluates _ he := List.forall_mem_singleton.mpr he
  canonical he := List.forall_mem_singleton.mpr he

mutual

/-- The conjuncts of a predicate can take its place. -/
theorem conjoins_conjuncts : ∀ e : Expr, Conjoins e.conjuncts e
  | column c => conjoins_singleton _
  | literal v => conjoins_singleton _
  | binary op l r => conjoins_singleton _
  | unary op e => conjoins_singleton _
  | call name args => conjoins_singleton _
  | or es => conjoins_singleton _
  -- only conjunctions are flattened, and their operands are so before they are
  | and es => by
      have hes := conjoins_conjunctsOfList es
      rw [conjuncts]
      refine ⟨fun row missing rest => ?_, fun row he => ?_, fun he => ?_⟩
      · rw [allOf_conjunctsOfList hes, eval, Scalar.conjunction, allOf_cons_allOf, Bool.or_false]
      · rw [conjunctsOfList_eq, List.forall_mem_flatMap]
        exact fun e hmem => (hes e hmem).evaluates row ((evaluates_and.mp he).2 e hmem)
      · simp only [Expr.canonical, and.injEq] at he
        rw [conjunctsOfList_eq, List.forall_mem_flatMap]
        exact fun e hmem => (hes e hmem).canonical (canonicalList_eq_self.mp he e hmem)

theorem conjoins_conjunctsOfList : ∀ es : List Expr, ∀ e ∈ es, Conjoins e.conjuncts e
  | [], _, h => absurd h List.not_mem_nil
  | e :: es, e', h => by
      rcases List.mem_cons.mp h with heq | h
      · rw [heq]
        exact conjoins_conjuncts e
      · exact conjoins_conjunctsOfList es e' h

end

/-- Literals TRUE can be left out of a conjunction. -/
theorem allOf_filter_isTrueLiteral (es : List Expr) (row : Row) (missing : Bool)
    (rest : List Scalar.Outcome) :
    Scalar.allOf missing (evalList row (es.filter (!Rule.isTrueLiteral ·)) ++ rest) =
      Scalar.allOf missing (evalList row es ++ rest) := by
  induction es generalizing missing with
  | nil => rfl
  | cons e es ih =>
      -- TRUE neither settles a conjunction nor leaves a value missing
      by_cases he : Rule.isTrueLiteral e
      · have htrue : e = literal (.bool true) := of_decide_eq_true he
        rw [List.filter_cons_of_neg (by rw [he]; decide), ih, evalList, htrue]
        rfl
      · rw [List.filter_cons_of_pos (by simp [he]), evalList, evalList, List.cons_append,
          List.cons_append]
        rcases e.eval row with x | v
        · rfl
        · cases hs : v.settles true with
          | true => exact Scalar.allOf_of_settles missing v _ _ hs
          | false =>
              obtain ⟨missing', hgo⟩ := Scalar.allOf_of_not_settles missing v hs
              rw [hgo, hgo, ih]

theorem Conjoins.filter {es : List Expr} (h : Conjoins es e) :
    Conjoins (es.filter (!Rule.isTrueLiteral ·)) e where
  allOf row missing rest := by rw [allOf_filter_isTrueLiteral, h.allOf]
  evaluates row he part hpart := h.evaluates row he part (List.mem_of_mem_filter hpart)
  canonical he part hpart := h.canonical he part (List.mem_of_mem_filter hpart)

/-- What a conjunction of outcomes that has a value makes of the expression that stands for it:
also a single operand stands for itself, as it is a truth value then. -/
theorem eval_conjunction {es : List Expr} {v : Scalar}
    (h : Scalar.conjunction (evalList row es) = .ok v) : (conjunction es).eval row = .ok v := by
  match es with
  | [] => exact h
  | [e] =>
      rw [evalList, evalList] at h
      rw [conjunction]
      rcases he : e.eval row with x | u
      · rw [he] at h
        cases h
      · rw [he] at h
        -- an operand of a conjunction with a value is NULL or a truth value
        rcases u with _ | (_ | _) | _ | _ | _ | _ <;> cases h <;> rfl
  | e :: e' :: es => exact h

/-- The conjunction of two truth values, either of which may be missing, is TRUE just when both
are. -/
theorem conjunction_pair {a b : Scalar} (ha : DataType.boolean.admits a = true)
    (hb : DataType.boolean.admits b = true) :
    ∃ v, Scalar.conjunction [.ok a, .ok b] = .ok v ∧ DataType.boolean.admits v = true ∧
      v.isTrue = (a.isTrue && b.isTrue) := by
  rcases DataType.boolean_admits_iff.mp ha with rfl | ⟨_ | _, rfl⟩ <;>
    rcases DataType.boolean_admits_iff.mp hb with rfl | ⟨_ | _, rfl⟩ <;>
    exact ⟨_, rfl, rfl, rfl⟩

section Conjunction

variable {t : RowType} {a b : Expr} {as bs : List Expr}

/-- Going through the conjuncts of two predicates is going through the predicates. -/
theorem conjunction_evalList_append (ha : Conjoins as a) (hb : Conjoins bs b) (row : Row) :
    Scalar.conjunction (evalList row (as ++ bs)) =
      Scalar.conjunction [a.eval row, b.eval row] := by
  unfold Scalar.conjunction
  rw [evalList_append, ha.allOf]
  -- the first predicate may settle the outcome, so that the second one is never looked at
  rcases a.eval row with x | u
  · rfl
  · cases hs : u.settles true with
    | true => exact Scalar.allOf_of_settles false u _ _ hs
    | false =>
        obtain ⟨missing', hgo⟩ := Scalar.allOf_of_not_settles false u hs
        rw [hgo, hgo, ← List.append_nil (evalList row bs), hb.allOf]

/-- What goes through the conjuncts of two predicates comes to the conjunction of their values. -/
theorem eval_conjunction_append (ha : Conjoins as a) (hb : Conjoins bs b) {v : Scalar}
    (h : Scalar.conjunction [a.eval row, b.eval row] = .ok v) :
    (conjunction (as ++ bs)).eval row = .ok v := by
  rw [← conjunction_evalList_append ha hb] at h
  exact eval_conjunction h

/-- The parts of a conjunction that has a value evaluate if the operands do. -/
theorem evaluates_conjunction {es : List Expr} (h : ∀ e ∈ es, e.Evaluates row)
    (hv : ∃ v, (conjunction es).eval row = .ok v) : (conjunction es).Evaluates row := by
  match es with
  | [] => exact evaluates_literal _
  | [e] => exact List.forall_mem_singleton.mp h
  | e :: e' :: es => exact evaluates_and.mpr ⟨hv, h⟩

/-- The conjunction of the conjuncts of two predicates is a predicate, and TRUE on the rows on
which both are. -/
theorem HasType.conjunction (hta : a.HasType t .boolean) (htb : b.HasType t .boolean)
    (ha : Conjoins as a) (hb : Conjoins bs b) :
    (conjunction (as ++ bs)).HasType t .boolean ∧ ∀ row, t.Admits row →
      ((conjunction (as ++ bs)).value row).isTrue =
        ((a.value row).isTrue && (b.value row).isTrue) := by
  have hvalue : ∀ row, t.Admits row → ∃ v, (Expr.conjunction (as ++ bs)).eval row = .ok v ∧
      DataType.boolean.admits v = true ∧
        v.isTrue = ((a.value row).isTrue && (b.value row).isTrue) := by
    intro row hrow
    obtain ⟨v, hv, htype, htrue⟩ := conjunction_pair (hta.admits hrow) (htb.admits hrow)
    rw [← (hta.evaluates hrow).eval, ← (htb.evaluates hrow).eval] at hv
    exact ⟨v, eval_conjunction_append ha hb hv, htype, htrue⟩
  refine ⟨fun row hrow => ?_, fun row hrow => ?_⟩
  · obtain ⟨v, hv, htype, -⟩ := hvalue row hrow
    refine ⟨evaluates_conjunction (fun e he => ?_) ⟨v, hv⟩, by rwa [value_of_eval hv]⟩
    rcases List.mem_append.mp he with he | he
    · exact ha.evaluates row (hta.evaluates hrow) e he
    · exact hb.evaluates row (htb.evaluates hrow) e he
  · obtain ⟨v, hv, -, htrue⟩ := hvalue row hrow
    rw [value_of_eval hv, htrue]

/-- A conjunction stands for itself if its operands do. -/
theorem canonical_conjunction {es : List Expr} (h : ∀ e ∈ es, e.canonical = e) :
    (Expr.conjunction es).canonical = Expr.conjunction es := by
  match es with
  | [] => rfl
  | [e] => exact h e (List.mem_singleton_self e)
  | e :: e' :: es =>
      rw [Expr.conjunction, canonical, canonicalList_eq_self.mpr h]
      · exact fun h => nomatch h
      · exact fun _ h => nomatch h

end Conjunction

end Expr

/-! ## Columns in order -/

namespace Rule

variable {α : Type} {f : Expr → α} {n m : Nat}

/-- Columns from `first` on read what stands from there on, if every column reads what stands at its
place. -/
theorem map_of_areColumnsFrom {vs : List α} (hf : ∀ (c : Column) v, vs[c.index]? = some v →
    f (.column c) = v) {exprs : List Expr} {first : Nat} (h : areColumnsFrom first exprs = true)
    (hlen : first + exprs.length = vs.length) : exprs.map f = vs.drop first := by
  induction exprs generalizing first with
  | nil =>
      rw [List.length_nil, Nat.add_zero] at hlen
      rw [hlen, List.drop_length]
      rfl
  | cons e rest ih =>
      rw [List.length_cons] at hlen
      cases e with
      | column c =>
          obtain ⟨hc, hrest⟩ := Bool.and_eq_true_iff.mp h
          have hindex : c.index = first := of_decide_eq_true hc
          have hlt : first < vs.length := by omega
          rw [List.map_cons, ih hrest (by omega), List.drop_eq_getElem_cons hlt]
          -- the first column reads what stands at its place, the others what is behind it
          congr 1
          refine hf c _ ?_
          rw [hindex, List.getElem?_eq_getElem hlt]
      | _ => cases h

/-- What stands in `xs ++ ys` is found at its new place in `ys ++ xs`. -/
theorem getElem?_swapIndex {xs ys : List α} (hxs : xs.length = n) (hys : ys.length = m) {i : Nat}
    (hi : i < n + m) : (ys ++ xs)[swapIndex n m i]? = (xs ++ ys)[i]? := by
  unfold swapIndex
  by_cases h : i < n
  · rw [if_pos h, List.getElem?_append_right (by omega), List.getElem?_append_left (by omega)]
    congr 1
    omega
  · rw [if_neg h, List.getElem?_append_left (by omega), List.getElem?_append_right (by omega)]
    congr 1
    omega

theorem length_restoreOrder (n m : Nat) (out : RowType) :
    (restoreOrder n m out).length = out.width := by
  rw [restoreOrder, List.length_map, List.length_zipIdx]
  rfl

/-- The columns in restored order read what stood there before the exchange. -/
theorem map_restoreOrder {xs ys : List α} (hf : ∀ (c : Column) v, (ys ++ xs)[c.index]? = some v →
    f (.column c) = v) (hxs : xs.length = n) (hys : ys.length = m) {out : RowType}
    (hout : out.width = n + m) : (restoreOrder n m out).map f = xs ++ ys := by
  refine List.ext_getElem ?_ fun i hi hi' => ?_
  · rw [List.length_map, length_restoreOrder, hout, List.length_append, hxs, hys]
  · rw [List.length_append, hxs, hys] at hi'
    rw [List.getElem_map]
    simp only [restoreOrder, List.getElem_map, List.getElem_zipIdx, Nat.zero_add, Expr.col]
    refine hf _ _ ?_
    rw [getElem?_swapIndex hxs hys hi', List.getElem?_eq_getElem (by rw [List.length_append]; omega)]

end Rule

end QueryPlanner
