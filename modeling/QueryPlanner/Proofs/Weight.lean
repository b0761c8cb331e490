/-
# The weight of expressions

An expression weighs as much as its parts, and a column as much as what is read there. Inlining
keeps the weight, if every column weighs as much as what is put in its place; so however often
projections are merged, their expressions do not outgrow what is in the end computed. Predicates
grow when they are put together, but no faster than they gain conjuncts that say something.

* `weight` : how much an expression weighs;
* `weight_inlineList` : what is inlined weighs as much as what it was inlined in;
* `content` : how many conjuncts of a predicate say something;
* `content_conjunction_append`, `size_conjunction_append_le` : what two predicates are together.
-/
import Mathlib.Algebra.Order.BigOperators.Group.List
import Mathlib.Algebra.Order.Ring.Nat
import QueryPlanner.Proofs.Conjuncts
import QueryPlanner.Proofs.Rewriting

namespace QueryPlanner

namespace Expr

/-! ## Weight -/

mutual

/-- How many parts an expression has, where a column counts for what is read there. -/
def weight (w : Column → Nat) : Expr → Nat
  | column c => w c
  | literal _ => 1
  | binary _ l r => l.weight w + r.weight w + 1
  | unary _ e => e.weight w + 1
  | call _ args => weightOfList w args + 1
  | and es => weightOfList w es + 1
  | or es => weightOfList w es + 1

/-- The weight of several expressions. -/
def weightOfList (w : Column → Nat) : List Expr → Nat
  | [] => 0
  | e :: es => e.weight w + weightOfList w es

end

/-- The number of parts of an expression. -/
abbrev size (e : Expr) : Nat := e.weight fun _ => 1

variable {w w' : Column → Nat} {e : Expr} {es : List Expr}

/-- The weight of a list is the sum over its expressions. -/
theorem weightOfList_eq (w : Column → Nat) (es : List Expr) :
    weightOfList w es = (es.map (weight w)).sum := by
  induction es with
  | nil => rfl
  | cons e es ih => rw [weightOfList, List.map_cons, List.sum_cons, ih]

/-- Every expression weighs something, if every column does. -/
theorem weight_pos (hw : ∀ c, 0 < w c) (e : Expr) : 0 < e.weight w := by
  cases e with
  | column c => exact hw c
  | literal _ => exact Nat.one_pos
  | _ => exact Nat.succ_pos _

mutual

/-- The more its columns weigh, the more an expression does. -/
theorem weight_mono : ∀ {e : Expr}, (∀ c ∈ e.columns, w c ≤ w' c) → e.weight w ≤ e.weight w'
  | column c, h => h c (List.mem_singleton_self c)
  | literal _, _ => Nat.le_refl 1
  | binary _ l r, h => by
      obtain ⟨hl, hr⟩ := List.forall_mem_append.mp h
      exact Nat.succ_le_succ (Nat.add_le_add (weight_mono hl) (weight_mono hr))
  | unary _ _, h => Nat.succ_le_succ (weight_mono h)
  | call _ _, h => Nat.succ_le_succ (weightOfList_mono h)
  | and _, h => Nat.succ_le_succ (weightOfList_mono h)
  | or _, h => Nat.succ_le_succ (weightOfList_mono h)

theorem weightOfList_mono : ∀ {es : List Expr}, (∀ c ∈ columnsOfList es, w c ≤ w' c) →
    weightOfList w es ≤ weightOfList w' es
  | [], _ => Nat.le_refl 0
  | _ :: _, h => by
      obtain ⟨he, hes⟩ := List.forall_mem_append.mp h
      exact Nat.add_le_add (weight_mono he) (weightOfList_mono hes)

end

/-- Only the weight of its columns matters for an expression. -/
theorem weight_congr (h : ∀ c ∈ e.columns, w c = w' c) : e.weight w = e.weight w' :=
  Nat.le_antisymm (weight_mono fun c hc => Nat.le_of_eq (h c hc))
    (weight_mono fun c hc => Nat.le_of_eq (h c hc).symm)

mutual

/-- What is put in the place of columns counts for them. -/
theorem weight_substitute (w : Column → Nat) (σ : Column → Expr) : ∀ e : Expr,
    (e.substitute σ).weight w = e.weight fun c => (σ c).weight w
  | column _ => rfl
  | literal _ => rfl
  | binary _ l r => by
      rw [substitute, weight, weight, weight_substitute w σ l, weight_substitute w σ r]
  | unary _ e => by rw [substitute, weight, weight, weight_substitute w σ e]
  | call _ args => by rw [substitute, weight, weight, weightOfList_substituteList w σ args]
  | and es => by rw [substitute, weight, weight, weightOfList_substituteList w σ es]
  | or es => by rw [substitute, weight, weight, weightOfList_substituteList w σ es]

theorem weightOfList_substituteList (w : Column → Nat) (σ : Column → Expr) : ∀ es : List Expr,
    weightOfList w (substituteList σ es) = weightOfList (fun c => (σ c).weight w) es
  | [] => rfl
  | e :: es => by
      rw [substituteList, weightOfList, weightOfList, weight_substitute w σ e,
        weightOfList_substituteList w σ es]

end

/-- Moving columns changes no size. -/
theorem size_mapColumns (f : Nat → Nat) (e : Expr) : (e.mapColumns f).size = e.size := by
  unfold size
  rw [mapColumns_eq_substitute, weight_substitute]
  rfl

mutual

/-- Literals weigh the same in canonical form. -/
theorem weight_canonical (w : Column → Nat) : ∀ e : Expr, e.canonical.weight w = e.weight w
  | column _ => rfl
  | literal _ => rfl
  | binary _ l r => by
      rw [canonical, weight, weight, weight_canonical w l, weight_canonical w r]
  | unary _ e => by rw [canonical, weight, weight, weight_canonical w e]
  | call _ args => by rw [canonical, weight, weight, weightOfList_canonicalList w args]
  | and es => by rw [canonical, weight, weight, weightOfList_canonicalList w es]
  | or es => by rw [canonical, weight, weight, weightOfList_canonicalList w es]

theorem weightOfList_canonicalList (w : Column → Nat) : ∀ es : List Expr,
    weightOfList w (canonicalList es) = weightOfList w es
  | [] => rfl
  | e :: es => by
      rw [canonicalList, weightOfList, weightOfList, weight_canonical w e,
        weightOfList_canonicalList w es]

end

/-! ## Inlining -/

/-- The weight of a column by its position; columns that are out of range count once. -/
def byPosition (weights : List Nat) (c : Column) : Nat := weights[c.index]?.getD 1

theorem byPosition_pos {weights : List Nat} (h : ∀ x ∈ weights, 0 < x) (c : Column) :
    0 < byPosition weights c := by
  unfold byPosition
  rcases hx : weights[c.index]? with _ | x
  · exact Nat.one_pos
  · exact h x (List.mem_of_getElem? hx)

/-- What is inlined weighs as much as what it was inlined in, if columns weigh what the expressions
in their place do. -/
theorem weight_inlineList {inner merged : List Expr} (h : inlineList inner es = some merged) :
    merged.map (weight w) = es.map (weight (byPosition (inner.map (weight w)))) := by
  obtain ⟨rfl, hrange⟩ := inlineList_eq_substituteList inner h
  rw [substituteList_eq, List.map_map]
  refine List.map_congr_left fun e he => ?_
  rw [Function.comp_apply, weight_substitute]
  refine weight_congr fun c hc => ?_
  have hlt : c.index < inner.length := by
    refine hrange c ?_
    rw [columnsOfList_eq]
    exact List.mem_flatMap.mpr ⟨e, he, hc⟩
  unfold byPosition inlined
  rw [List.getElem?_map, List.getElem?_eq_getElem hlt]
  rfl

/-! ## Conjuncts -/

mutual

/-- An expression weighs at least as much as its conjuncts. -/
theorem sum_weight_conjuncts_le (w : Column → Nat) : ∀ e : Expr,
    (e.conjuncts.map (weight w)).sum ≤ e.weight w
  | and es => Nat.le_succ_of_le (sum_weight_conjunctsOfList_le w es)
  | column _ | literal _ | binary .. | unary .. | call .. | or _ => Nat.le_of_eq (by simp [conjuncts])

theorem sum_weight_conjunctsOfList_le (w : Column → Nat) : ∀ es : List Expr,
    ((conjunctsOfList es).map (weight w)).sum ≤ weightOfList w es
  | [] => Nat.le_refl 0
  | e :: es => by
      rw [conjunctsOfList, weightOfList, List.map_append, List.sum_append]
      exact Nat.add_le_add (sum_weight_conjuncts_le w e) (sum_weight_conjunctsOfList_le w es)

end

/-- A conjunction weighs little more than its conjuncts. -/
theorem weight_conjunction_le (w : Column → Nat) (es : List Expr) :
    (conjunction es).weight w ≤ (es.map (weight w)).sum + 1 := by
  rcases es with _ | ⟨e, _ | ⟨e', rest⟩⟩
  · exact Nat.le_refl 1
  · rw [conjunction, List.map_singleton, List.sum_singleton]
    exact Nat.le_succ _
  · show weightOfList w _ + 1 ≤ _
    exact Nat.le_of_eq (congrArg Nat.succ (weightOfList_eq w _))

/-- Two predicates put together are no larger than both and one more. -/
theorem size_conjunction_append_le {a b : Expr} {cs : List Expr} (hcs : cs.Sublist a.conjuncts) :
    (conjunction (cs ++ b.conjuncts)).size ≤ a.size + b.size + 1 := by
  have hleft : (cs.map size).sum ≤ a.size :=
    Nat.le_trans ((hcs.map size).sum_le_sum fun _ _ => Nat.zero_le _) (sum_weight_conjuncts_le _ a)
  refine Nat.le_trans (weight_conjunction_le _ _) (Nat.succ_le_succ ?_)
  rw [List.map_append, List.sum_append]
  exact Nat.add_le_add hleft (sum_weight_conjuncts_le _ b)

mutual

/-- Moving columns moves those of the conjuncts. -/
theorem conjuncts_mapColumns (f : Nat → Nat) : ∀ e : Expr,
    (e.mapColumns f).conjuncts = e.conjuncts.map (mapColumns f)
  | and es => conjunctsOfList_mapColumnsList f es
  | column _ | literal _ | binary .. | unary .. | call .. | or _ => rfl

theorem conjunctsOfList_mapColumnsList (f : Nat → Nat) : ∀ es : List Expr,
    conjunctsOfList (mapColumnsList f es) = (conjunctsOfList es).map (mapColumns f)
  | [] => rfl
  | e :: es => by
      rw [mapColumnsList, conjunctsOfList, conjunctsOfList, conjuncts_mapColumns f e,
        conjunctsOfList_mapColumnsList f es, List.map_append]

end

/-! ## Content -/

/-- How many conjuncts of a predicate say something, which TRUE does not. -/
def content (e : Expr) : Nat := (e.conjuncts.filter fun x => !Rule.isTrueLiteral x).length

/-- Moving columns changes no content. -/
theorem content_mapColumns (f : Nat → Nat) (e : Expr) : (e.mapColumns f).content = e.content := by
  have hsame : ∀ x : Expr, Rule.isTrueLiteral (x.mapColumns f) = Rule.isTrueLiteral x := by
    intro x
    unfold Rule.isTrueLiteral
    cases x <;> simp [mapColumns]
  unfold content
  rw [conjuncts_mapColumns, List.filter_map, List.length_map]
  exact congrArg List.length (List.filter_congr fun x _ => by rw [Function.comp_apply, hsame])

/-- Predicates that are alike have the same content. -/
theorem content_canonical (e : Expr) : e.canonical.content = e.content := by
  have hsame : ∀ x : Expr, Rule.isTrueLiteral x.canonical = Rule.isTrueLiteral x := by
    intro x
    unfold Rule.isTrueLiteral
    rcases x with _ | v | _ | _ | _ | _ | _
    case literal => cases v <;> simp [canonical, Scalar.canonical]
    all_goals simp [canonical]
  unfold content
  rw [conjuncts_canonical, List.filter_map, List.length_map]
  exact congrArg List.length (List.filter_congr fun x _ => by rw [Function.comp_apply, hsame])

/-- A conjunction has the content of its conjuncts. -/
theorem content_conjunction (h : ∀ x ∈ es, x.conjuncts = [x]) :
    (conjunction es).content = (es.filter fun x => !Rule.isTrueLiteral x).length := by
  rcases es with _ | ⟨x, rest⟩
  · rfl
  · unfold content
    rw [conjuncts_conjunction h (List.cons_ne_nil x rest)]

/-- Two predicates put together have the content of both, also without what says nothing. -/
theorem content_conjunction_append {a b : Expr} {cs : List Expr} (hcs : ∀ x ∈ cs, x ∈ a.conjuncts)
    (hcontent : (cs.filter fun x => !Rule.isTrueLiteral x).length = a.content) :
    (conjunction (cs ++ b.conjuncts)).content = a.content + b.content := by
  rw [content_conjunction, List.filter_append, List.length_append, hcontent]
  · rfl
  · refine List.forall_mem_append.mpr ⟨fun x hx => ?_, fun x hx => ?_⟩
    · exact conjuncts_of_mem_conjuncts (hcs x hx)
    · exact conjuncts_of_mem_conjuncts hx

end Expr

end QueryPlanner
