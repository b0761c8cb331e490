/-
# Limits

What rules cannot get beyond: the vocabulary of a plan, the fields of its row types, how much a
column weighs and how much a relation is filtered, and how large predicates are for what they say.
Only finitely many operators are within limits.

* `Limits`, `Limits.Allows` : limits, and the shapes within them;
* `Operator.IsOver` : operators within limits;
* `Limits.finite_operators` : there are finitely many of them;
* `isOver_conjunction_append` : predicates put together stay within limits.
-/
import QueryPlanner.Proofs.Shape
import QueryPlanner.Proofs.Vocabulary

namespace QueryPlanner

open Rule

/-- What there may be in a memo: a vocabulary, fields of row types, operators that no rule makes,
and conventions; how large a predicate is for each of its conjuncts that says something, how much a
column weighs, and how many conjuncts say something in what a relation is computed by. Joins read
groups below some number only. -/
structure Limits extends Vocabulary where
  fields : Set Field
  given : Set Operator
  conventions : Set Convention
  bulk : Nat
  weight : Nat
  content : Nat
  older : Nat
  finite_fields : fields.Finite
  finite_given : given.Finite
  finite_conventions : conventions.Finite
  name_mem : ∀ f ∈ fields, (none, f.name) ∈ columns
  builtin_mem : ∀ c ∈ Convention.builtin, c ∈ conventions

variable {lim : Limits}

theorem Limits.logical_mem (lim : Limits) : Convention.logical ∈ lim.conventions :=
  lim.builtin_mem _ (by decide)

/-- A shape is within limits. -/
structure Limits.Allows (lim : Limits) (s : Shape) : Prop where
  fields : ∀ f ∈ s.rowType.fields, f ∈ lim.fields
  width : s.rowType.width ≤ lim.width
  weights : ∀ w ∈ s.weights, w ≤ lim.weight
  content : s.content ≤ lim.content

/-- An operator is within limits, whatever it is over. The predicate of a filter says something. -/
def Operator.IsOver (lim : Limits) : Operator → Prop
  | .filter p => p.IsOver lim.toVocabulary ∧ p.size + 1 ≤ lim.bulk * p.content
  | .project exprs _ => ∀ e ∈ exprs, e.IsOver lim.toVocabulary
  | .join _ c => c.IsOver lim.toVocabulary ∧ c.size + 1 ≤ lim.bulk * (c.content + 1)
  | .converter source => source ∈ lim.conventions
  | op => op ∈ lim.given

/-! ## Predicates -/

section Conjunction

variable {a b : Expr} {cs : List Expr}

/-- A predicate that says something has conjuncts. -/
theorem Expr.conjuncts_ne_nil_of_content (h : 0 < b.content) : b.conjuncts ≠ [] := by
  intro hnil
  unfold content at h
  rw [hnil] at h
  exact Nat.lt_irrefl 0 h

/-- Two predicates put together stay within a vocabulary, if the second one says something. -/
theorem Expr.isOver_conjunction_append {voc : Vocabulary} (ha : a.IsOver voc) (hb : b.IsOver voc)
    (hcs : ∀ x ∈ cs, x ∈ a.conjuncts) (hcontent : 0 < b.content) :
    (conjunction (cs ++ b.conjuncts)).IsOver voc := by
  refine isOver_conjunction (fun hnil => ?_) (List.forall_mem_append.mpr ⟨fun x hx => ?_, fun x hx => ?_⟩)
  · exact conjuncts_ne_nil_of_content hcontent (List.append_eq_nil_iff.mp hnil).2
  · exact isOver_of_mem_conjuncts ha (hcs x hx)
  · exact isOver_of_mem_conjuncts hb hx

/-- The predicate of a filter says something. -/
theorem Operator.IsOver.content_pos (h : (Operator.filter b).IsOver lim) : 0 < b.content := by
  rcases Nat.eq_zero_or_pos b.content with hzero | hpos
  · have hsize := h.2
    rw [hzero, Nat.mul_zero] at hsize
    exact absurd hsize (Nat.not_succ_le_zero _)
  · exact hpos

/-- A filter on two predicates that filters are on is within limits. -/
theorem Operator.isOver_filter_conjunction (ha : (Operator.filter a).IsOver lim)
    (hb : (Operator.filter b).IsOver lim) :
    (Operator.filter (.conjunction (a.conjuncts ++ b.conjuncts))).IsOver lim := by
  refine ⟨Expr.isOver_conjunction_append ha.1 hb.1 (fun _ hx => hx) hb.content_pos, ?_⟩
  have hsize := Expr.size_conjunction_append_le (b := b) (List.Sublist.refl a.conjuncts)
  rw [Expr.content_conjunction_append (fun _ hx => hx) rfl, Nat.mul_add]
  have hbulk := Nat.add_le_add ha.2 hb.2
  omega

/-- A join on its condition and what a filter is on is within limits. -/
theorem Operator.isOver_join_conjunction {type type' : JoinType}
    (ha : (Operator.join type a).IsOver lim) (hb : (Operator.filter b).IsOver lim) :
    (Operator.join type' (.conjunction (a.conjuncts.filter (!isTrueLiteral ·) ++
      b.conjuncts))).IsOver lim := by
  have hsublist : (a.conjuncts.filter (!isTrueLiteral ·)).Sublist a.conjuncts := List.filter_sublist
  refine ⟨Expr.isOver_conjunction_append ha.1 hb.1 (fun _ hx => hsublist.subset hx) hb.content_pos, ?_⟩
  have hsize := Expr.size_conjunction_append_le (b := b) hsublist
  have hcontent : ((a.conjuncts.filter (!isTrueLiteral ·)).filter
      (!isTrueLiteral ·)).length = a.content := by
    rw [List.filter_filter]
    exact congrArg List.length (List.filter_congr fun x _ => Bool.and_self _)
  rw [Expr.content_conjunction_append (fun _ hx => hsublist.subset hx) hcontent,
    Nat.add_right_comm, Nat.mul_add]
  have hbulk := Nat.add_le_add ha.2 hb.2
  omega

end Conjunction

/-! ## Joins with their inputs exchanged -/

section Swap

variable {l r : Shape} {c : Expr}

/-- The width of an inner join within limits. -/
theorem Limits.Allows.width_join_le {type : JoinType} (h : lim.Allows (l.join type c r)) :
    l.rowType.width + r.rowType.width ≤ lim.width := by
  have hwidth : (l.rowType.join r.rowType (type == .left)).width ≤ lim.width := h.width
  rwa [RowType.width_join] at hwidth

theorem swapIndex_lt {leftWidth rightWidth i n : Nat} (hn : leftWidth + rightWidth ≤ n) (hi : i < n) :
    swapIndex leftWidth rightWidth i < n := by
  unfold swapIndex
  split
  · omega
  · omega

/-- An inner join has the fields of both inputs as they are. -/
theorem RowType.fields_join_false (t u : RowType) :
    (t.join u false).fields = t.fields ++ u.fields := by
  have hsame : u.fields.map (fun f => { f with nullable := f.nullable || false }) = u.fields := by
    simp only [Bool.or_false]
    exact List.map_id u.fields
  unfold join
  rw [hsame]

/-- An inner join with its inputs exchanged is within limits if the join is. -/
theorem Limits.Allows.swap {c' : Expr} (h : lim.Allows (l.join .inner c r))
    (hcontent : c'.content = c.content) : lim.Allows (r.join .inner c' l) where
  fields := by
    have hfields : ∀ f ∈ (l.rowType.join r.rowType false).fields, f ∈ lim.fields := h.fields
    rw [RowType.fields_join_false] at hfields
    show ∀ f ∈ (r.rowType.join l.rowType false).fields, f ∈ lim.fields
    rw [RowType.fields_join_false]
    obtain ⟨hl, hr⟩ := List.forall_mem_append.mp hfields
    exact List.forall_mem_append.mpr ⟨hr, hl⟩
  width := by
    show (r.rowType.join l.rowType false).width ≤ lim.width
    rw [RowType.width_join, Nat.add_comm]
    exact h.width_join_le
  weights := by
    obtain ⟨hl, hr⟩ := List.forall_mem_append.mp h.weights
    exact List.forall_mem_append.mpr ⟨hr, hl⟩
  content := by
    have hold : l.content + r.content + c.content ≤ lim.content := h.content
    show r.content + l.content + c'.content ≤ lim.content
    omega

/-- The columns that restore the order of a join are within limits if the join is. -/
theorem isOver_restoreOrder (h : lim.Allows (l.join .inner c r)) {output : RowType}
    (houtput : output = (l.join .inner c r).rowType) :
    (Operator.project (restoreOrder l.rowType.width r.rowType.width output) output).IsOver lim := by
  intro e he
  unfold restoreOrder at he
  obtain ⟨⟨f, i⟩, hmem, rfl⟩ := List.mem_map.mp he
  obtain ⟨-, hlt, hf⟩ := List.mem_zipIdx hmem
  rw [Nat.zero_add, houtput] at hlt
  have hwidth : i < lim.width := Nat.lt_of_lt_of_le hlt h.width
  refine Expr.isOver_column.mpr ⟨lim.name_mem f (h.fields f ?_), swapIndex_lt h.width_join_le hwidth⟩
  rw [← houtput, hf]
  exact List.getElem_mem _

/-- The condition of a join stays within limits when its columns follow the inputs. -/
theorem Operator.isOver_join_swapped {type : JoinType} (h : lim.Allows (l.join type c r))
    (hc : (Operator.join type c).IsOver lim) :
    (Operator.join .inner (c.mapColumns (swapIndex l.rowType.width r.rowType.width))).IsOver lim := by
  refine ⟨Expr.isOver_mapColumns (fun i hi => swapIndex_lt h.width_join_le hi) hc.1, ?_⟩
  rw [Expr.size_mapColumns, Expr.content_mapColumns]
  exact hc.2

end Swap

/-! ## Finiteness -/

namespace Limits

/-- The operators that are within limits, and so is what they give over some inputs. -/
def operators (lim : Limits) : Set Operator :=
  {op | op.IsOver lim ∧ ∃ inputs s, op.Shapes inputs s ∧ lim.Allows s}

/-- There are finitely many row types within limits. -/
theorem finite_rowTypes (lim : Limits) :
    {t : RowType | t.width ≤ lim.width ∧ ∀ f ∈ t.fields, f ∈ lim.fields}.Finite := by
  refine ((finite_setOf_length_le lim.finite_fields lim.width).image RowType.mk).subset ?_
  rintro ⟨fields⟩ ⟨hwidth, hfields⟩
  exact ⟨fields, ⟨hwidth, hfields⟩, rfl⟩

/-- The expressions of a projection are no larger than columns weigh. -/
theorem size_le_of_mem_project {exprs : List Expr} {t : RowType} {s : Shape}
    (hlength : exprs.length = t.width) (h : lim.Allows (s.project exprs t hlength)) {e : Expr}
    (he : e ∈ exprs) : e.size ≤ lim.weight :=
  Nat.le_trans (Expr.weight_mono fun c _ => Expr.byPosition_pos s.weights_pos c)
    (h.weights _ (List.mem_map_of_mem he))

/-- There are finitely many operators within limits. -/
theorem finite_operators (lim : Limits) : lim.operators.Finite := by
  have hfilters := (Expr.finite_setOf_isOver lim.toVocabulary (lim.bulk * lim.content)).image
    Operator.filter
  have hprojects := (finite_setOf_length_le
    (Expr.finite_setOf_isOver lim.toVocabulary lim.weight) lim.width).image2 Operator.project
    lim.finite_rowTypes
  have hjoins := (Set.toFinite {JoinType.inner, JoinType.left}).image2 Operator.join
    (Expr.finite_setOf_isOver lim.toVocabulary (lim.bulk * (lim.content + 1)))
  have hconverters := lim.finite_conventions.image Operator.converter
  refine (hfilters.union (hprojects.union (hjoins.union (hconverters.union
    lim.finite_given)))).subset ?_
  rintro op ⟨hover, inputs, s, hshape, hs⟩
  cases op with
  | filter p =>
      obtain ⟨input, -, rfl⟩ := hshape.filter_inv
      have hcontent : input.content + p.content ≤ lim.content := hs.content
      have hbulk := Nat.mul_le_mul_left lim.bulk (Nat.le_trans (Nat.le_add_left _ _) hcontent)
      exact .inl ⟨p, ⟨hover.1, Nat.le_of_succ_le (Nat.le_trans hover.2 hbulk)⟩, rfl⟩
  | project exprs t =>
      obtain ⟨input, hlength, -, rfl⟩ := hshape.project_inv
      refine .inr (.inl ⟨exprs, ⟨hlength ▸ hs.width, fun e he => ⟨hover e he, ?_⟩⟩, t,
        ⟨hs.width, hs.fields⟩, rfl⟩)
      exact size_le_of_mem_project hlength hs he
  | join type c =>
      obtain ⟨l, r, -, rfl⟩ := hshape.join_inv
      have hcontent : l.content + r.content + c.content ≤ lim.content := hs.content
      have hbulk := Nat.mul_le_mul_left lim.bulk
        (Nat.succ_le_succ (Nat.le_trans (Nat.le_add_left _ _) hcontent))
      refine .inr (.inr (.inl ⟨type, ?_, c, ⟨hover.1, ?_⟩, rfl⟩))
      · cases type <;> simp
      · exact Nat.le_of_succ_le (Nat.le_trans hover.2 hbulk)
  | converter source => exact .inr (.inr (.inr (.inl ⟨source, hover, rfl⟩)))
  | values | scan | sort | limit => exact .inr (.inr (.inr (.inr hover)))

end Limits

end QueryPlanner
