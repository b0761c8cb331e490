/-
# Proposals within limits

What the standard rules propose for a member of a bounded memo is of the shape of the group of the
member, and within limits. So it can be inserted, and the memo stays bounded.

* `Proposal.Suits` : a proposal for a group of some shape, within limits;
* `IsBounded.suits_of_suggests` : what the standard rules propose is suitable.
-/
import QueryPlanner.Proofs.Memo.Bounds
import QueryPlanner.Proofs.Suggestion

namespace QueryPlanner

open Memo Rule

/-- What holds of both members of a list of two. -/
theorem forall_mem_pair {α : Type} {P : α → Prop} {a b : α} : (∀ x ∈ [a, b], P x) ↔ P a ∧ P b := by
  rw [List.forall_mem_cons, List.forall_mem_singleton]

variable {ν : Type} {lim : Limits} {den den' : GroupId → Shape} {n n' : Nat} {s : Shape}

/-- A proposal for a group of some shape, within limits and over the first `n` groups. What it wants
to be added first is one operator over old groups. -/
def Proposal.Suits (lim : Limits) (den : GroupId → Shape) (n : Nat) (s : Shape) : Proposal → Prop
  | .substitution op children => (∀ g ∈ children, g < n) ∧ op.Shapes (children.map den) s ∧
      lim.Permits op .logical children (children.map fun _ => .logical)
  | .compound op sources => ∃ below gs inner, sources = [.fresh below (gs.map .group)] ∧
      (∀ g ∈ gs, g < n ∧ g < lim.older) ∧ below.Shapes (gs.map den) inner ∧ lim.Allows inner ∧
      lim.Permits below .logical gs (gs.map fun _ => .logical) ∧
      op.Shapes [inner] s ∧ op.IsOver lim ∧ op.kind ≠ .join
  | .physical op c inputs => (∀ g ∈ inputs.map Prod.fst, g < n) ∧
      op.Shapes ((inputs.map Prod.fst).map den) s ∧
      lim.Permits op c (inputs.map Prod.fst) (inputs.map Prod.snd)

/-- It stays suitable when there are more groups. -/
theorem Proposal.Suits.mono {p : Proposal} (h : p.Suits lim den n s) (hn : n ≤ n')
    (hagree : ∀ g < n, den' g = den g) : p.Suits lim den' n' s := by
  have hmap : ∀ gs : List GroupId, (∀ g ∈ gs, g < n) → gs.map den' = gs.map den := fun gs hgs =>
    List.map_congr_left fun g hg => hagree g (hgs g hg)
  cases p with
  | substitution op children =>
      obtain ⟨hlt, hop, hpermits⟩ := h
      exact ⟨fun g hg => Nat.lt_of_lt_of_le (hlt g hg) hn, hmap _ hlt ▸ hop, hpermits⟩
  | compound op sources =>
      obtain ⟨below, gs, inner, hsources, hlt, hbelow, hrest⟩ := h
      refine ⟨below, gs, inner, hsources, fun g hg => ⟨Nat.lt_of_lt_of_le (hlt g hg).1 hn,
        (hlt g hg).2⟩, ?_, hrest⟩
      rwa [hmap _ fun g hg => (hlt g hg).1]
  | physical op c inputs =>
      obtain ⟨hlt, hop, hpermits⟩ := h
      exact ⟨fun g hg => Nat.lt_of_lt_of_le (hlt g hg) hn, hmap _ hlt ▸ hop, hpermits⟩

namespace Memo

variable {memo : Memo ν} {m : MemberId} {p : Proposal} {below : Member} {g : GroupId}

/-- What a logical member of a group is over, in a bounded memo. -/
theorem IsBounded.of_mem_logicalMembers (h : memo.IsBounded lim den)
    (hbelow : below ∈ logicalMembers memo g) : (∀ child ∈ below.children, child < memo.groups.size) ∧
      below.op.Shapes (below.children.map den) (den g) ∧
      lim.Permits below.op below.convention below.children below.inputs := by
  obtain ⟨i, hi, hlt, rfl, -⟩ := exists_of_mem_logicalMembers h.settled hbelow
  have hgroup := (h.settled.mem_group_iff.mp hi).2.2
  have hshape := h.shaped.member i hlt
  rw [hgroup, h.shaped.leader] at hshape
  exact ⟨(h.settled.member i hlt).1.children_lt, hshape, h.permits i hlt⟩

/-- A logical member of a group suits every group of the same shape. -/
theorem IsBounded.suits_of_mem_logicalMembers (h : memo.IsBounded lim den)
    (hbelow : below ∈ logicalMembers memo g) (hs : den g = s) :
    (Proposal.substitution below.op below.children).Suits lim den memo.groups.size s := by
  obtain ⟨hlt, hop, hpermits⟩ := h.of_mem_logicalMembers hbelow
  exact ⟨hlt, hs ▸ hop, hpermits.logical hpermits.isOver id⟩

/-- A trivial projection has the shape of its input. -/
theorem IsBounded.project_of_isTrivial (h : memo.IsBounded lim den) (hg : g < memo.groups.size)
    {exprs : List Expr} {t : RowType} (htrivial : isTrivial memo exprs t g = true)
    (hlength : exprs.length = t.width) : (den g).project exprs t hlength = den g := by
  unfold isTrivial at htrivial
  rw [h.shaped.rowType g hg] at htrivial
  simp only [Bool.and_eq_true, decide_eq_true_eq] at htrivial
  obtain ⟨⟨-, rfl⟩, hcolumns⟩ := htrivial
  exact Shape.project_columns hcolumns hlength

/-! ## What is proposed for a member -/

section Member

variable (h : memo.IsBounded lim den) (hm : m < memo.members.size)

include h hm

/-- An inner join with its inputs exchanged, under a projection that restores the order. -/
theorem IsBounded.suits_commute {condition : Expr} {left right : GroupId}
    (hjoin : (memo.member m).op = .join .inner condition)
    (hchildren : (memo.member m).children = [left, right]) :
    (Proposal.compound (.project (restoreOrder (memo.group left).rowType.width
      (memo.group right).rowType.width (memo.group (memo.member m).group).rowType)
        (memo.group (memo.member m).group).rowType)
      [.fresh (.join .inner (condition.mapColumns (swapIndex (memo.group left).rowType.width
        (memo.group right).rowType.width))) [.group right, .group left]]).Suits lim den
      memo.groups.size (den (memo.member m).group) := by
  have hfits := (h.settled.member m hm).1
  have hgroup := hfits.group_lt h.settled.led
  have hlt := hfits.children_lt
  have hop := h.shaped.member m hm
  have hpermits := h.permits m hm
  have hallows := h.allows _ hgroup
  rw [hjoin, hchildren] at hop hpermits
  have hold := hpermits.old rfl
  rw [hchildren] at hlt
  obtain ⟨hleft, hright⟩ := forall_mem_pair.mp hlt
  obtain ⟨hleftOld, hrightOld⟩ := forall_mem_pair.mp hold
  rw [h.shaped.rowType left hleft, h.shaped.rowType right hright, h.shaped.rowType _ hgroup]
  obtain ⟨l, r, hinputs, hout⟩ := hop.join_inv
  simp only [List.map_cons, List.map_nil, List.cons.injEq, and_true] at hinputs
  obtain ⟨rfl, rfl⟩ := hinputs
  rw [hout] at hallows ⊢
  have hover := Operator.isOver_join_swapped hallows hpermits.isOver
  have hlength := length_restoreOrder (den left).rowType.width (den right).rowType.width
    ((den left).join .inner condition (den right)).rowType
  refine ⟨_, [right, left], (den right).join .inner (condition.mapColumns (swapIndex
    (den left).rowType.width (den right).rowType.width)) (den left), rfl, ?_, .join,
    hallows.swap (Expr.content_mapColumns ..), ⟨hover, fun _ => ?_, ?_, ?_⟩, ?_,
    isOver_restoreOrder hallows rfl, OperatorKind.noConfusion⟩
  · exact forall_mem_pair.mpr ⟨⟨hright, hrightOld⟩, hleft, hleftOld⟩
  · exact forall_mem_pair.mpr ⟨hrightOld, hleftOld⟩
  · exact lim.logical_mem
  · exact forall_mem_pair.mpr ⟨lim.logical_mem, lim.logical_mem⟩
  · have hproject := Operator.Shapes.project (s := (den right).join .inner (condition.mapColumns
      (swapIndex (den left).rowType.width (den right).rowType.width)) (den left)) hlength
    rwa [Shape.project_join_swapped hlength] at hproject

variable {child : GroupId} (hchild : child ∈ (memo.member m).children)
  (hbelow : below ∈ logicalMembers memo child)

include hchild

/-- A filter reads a group that it filters. -/
theorem IsBounded.eq_filter {predicate : Expr} (hfilter : (memo.member m).op = .filter predicate) :
    den (memo.member m).group = (den child).filter predicate ∧
      (Operator.filter predicate).IsOver lim := by
  have hop := h.shaped.member m hm
  have hpermits := h.permits m hm
  rw [hfilter] at hop hpermits
  obtain ⟨input, hinputs, hout⟩ := hop.filter_inv
  have hinput : den child ∈ [input] := hinputs ▸ List.mem_map_of_mem hchild
  rw [hout, List.mem_singleton.mp hinput]
  exact ⟨rfl, hpermits.isOver⟩

/-- A projection reads a group that it projects. -/
theorem IsBounded.eq_project {exprs : List Expr} {t : RowType}
    (hproject : (memo.member m).op = .project exprs t) : ∃ hlength : exprs.length = t.width,
      den (memo.member m).group = (den child).project exprs t hlength ∧
        (Operator.project exprs t).IsOver lim := by
  have hop := h.shaped.member m hm
  have hpermits := h.permits m hm
  rw [hproject] at hop hpermits
  obtain ⟨input, hlength, hinputs, hout⟩ := hop.project_inv
  have hinput : den child ∈ [input] := hinputs ▸ List.mem_map_of_mem hchild
  rw [hout, List.mem_singleton.mp hinput]
  exact ⟨hlength, rfl, hpermits.isOver⟩

include hbelow

/-- An inner join below a filter, with the predicate added to its condition. -/
theorem IsBounded.suits_push {predicate condition : Expr}
    (hfilter : (memo.member m).op = .filter predicate) (hjoin : below.op = .join .inner condition) :
    (Proposal.substitution (.join .inner (.conjunction (condition.conjuncts.filter
      (!isTrueLiteral ·) ++ predicate.conjuncts))) below.children).Suits lim den memo.groups.size
      (den (memo.member m).group) := by
  obtain ⟨hout, hover⟩ := h.eq_filter hm hchild hfilter
  obtain ⟨hlt, hop, hpermits⟩ := h.of_mem_logicalMembers hbelow
  rw [hjoin] at hop hpermits
  obtain ⟨l, r, hinputs, hden⟩ := hop.join_inv
  refine ⟨hlt, ?_, hpermits.logical (Operator.isOver_join_conjunction hpermits.isOver hover)
    fun _ => rfl⟩
  rw [hout, hden, Shape.filter_join, hinputs]
  exact .join

/-- A filter below a filter, with both predicates. -/
theorem IsBounded.suits_merge {outer inner : Expr} (hfilter : (memo.member m).op = .filter outer)
    (hinner : below.op = .filter inner) :
    (Proposal.substitution (.filter (.conjunction (inner.conjuncts ++ outer.conjuncts)))
      below.children).Suits lim den memo.groups.size (den (memo.member m).group) := by
  obtain ⟨hout, hover⟩ := h.eq_filter hm hchild hfilter
  obtain ⟨hlt, hop, hpermits⟩ := h.of_mem_logicalMembers hbelow
  rw [hinner] at hop hpermits
  obtain ⟨input, hinputs, hden⟩ := hop.filter_inv
  refine ⟨hlt, ?_, hpermits.logical (Operator.isOver_filter_conjunction hpermits.isOver hover)
    OperatorKind.noConfusion⟩
  rw [hout, hden, Shape.filter_filter, hinputs]
  exact .filter

/-- What two projections, one below the other, compute together. -/
theorem IsBounded.eq_project_merged {outer inner merged : List Expr} {t t' : RowType}
    (hproject : (memo.member m).op = .project outer t) (hinner : below.op = .project inner t')
    (hmerged : Expr.inlineList inner outer = some merged) :
    ∃ input, ∃ hlength : merged.length = t.width, below.children.map den = [input] ∧
      den (memo.member m).group = input.project merged t hlength ∧
      (Operator.project merged t).IsOver lim := by
  obtain ⟨houter, hout, hover⟩ := h.eq_project hm hchild hproject
  obtain ⟨-, hop, hpermits⟩ := h.of_mem_logicalMembers hbelow
  rw [hinner] at hop hpermits
  obtain ⟨input, hlength, hinputs, hden⟩ := hop.project_inv
  have hsame := congrArg List.length (Expr.weight_inlineList (w := fun _ => 1) hmerged)
  rw [List.length_map, List.length_map] at hsame
  refine ⟨input, hsame.trans houter, hinputs, ?_, Expr.isOver_inlineList hmerged hover hpermits.isOver⟩
  rw [hout, hden]
  exact Shape.project_project hmerged hlength houter _

/-- A projection below a projection, with the expressions of both composed. -/
theorem IsBounded.suits_compose {outer inner merged : List Expr} {t t' : RowType}
    (hproject : (memo.member m).op = .project outer t) (hinner : below.op = .project inner t')
    (hmerged : Expr.inlineList inner outer = some merged) :
    (Proposal.substitution (.project merged t) below.children).Suits lim den memo.groups.size
      (den (memo.member m).group) := by
  obtain ⟨input, hlength, hinputs, hout, hover⟩ :=
    h.eq_project_merged hm hchild hbelow hproject hinner hmerged
  obtain ⟨hlt, -, hpermits⟩ := h.of_mem_logicalMembers hbelow
  refine ⟨hlt, ?_, hpermits.logical hover OperatorKind.noConfusion⟩
  rw [hout, hinputs]
  exact .project hlength

end Member

/-- What the standard rules propose for a member suits its group. -/
theorem IsBounded.suits_of_suggests (h : memo.IsBounded lim den) (hm : m < memo.members.size)
    (hp : Suggests memo (memo.member m) p) :
    p.Suits lim den memo.groups.size (den (memo.member m).group) := by
  have hlt := (h.settled.member m hm).1.children_lt
  cases hp with
  | commute hjoin hchildren => exact h.suits_commute hm hjoin hchildren
  | push hfilter hchild hbelow hjoin => exact h.suits_push hm hchild hbelow hfilter hjoin
  | merge hfilter hchild hbelow hinner => exact h.suits_merge hm hchild hbelow hfilter hinner
  | compose hproject hchild hbelow hinner hmerged =>
      exact h.suits_compose hm hchild hbelow hproject hinner hmerged
  | @drop _ _ child _ hproject hchild htrivial hbelow =>
      obtain ⟨hlength, hout, -⟩ := h.eq_project hm hchild hproject
      refine h.suits_of_mem_logicalMembers hbelow ?_
      rw [hout, h.project_of_isTrivial (hlt child hchild) htrivial]
  | @dropBoth _ _ _ _ _ _ input below _ hproject hchild hbelow hinner hmerged hinput htrivial hlower =>
      obtain ⟨shape, hlength, hinputs, hout, -⟩ :=
        h.eq_project_merged hm hchild hbelow hproject hinner hmerged
      have hmem : den input ∈ [shape] := hinputs ▸ List.mem_map_of_mem hinput
      obtain rfl := List.mem_singleton.mp hmem
      refine h.suits_of_mem_logicalMembers hlower ?_
      rw [hout, h.project_of_isTrivial ((h.of_mem_logicalMembers hbelow).1 input hinput) htrivial]
  | @implement c inputs hc hinputs hneeded =>
      have hbuiltin : ∀ c ∈ implemented, c ∈ Convention.builtin := by decide
      have hpermits := h.permits m hm
      refine ⟨?_, ?_, hpermits.isOver, ?_,
        lim.builtin_mem c (hbuiltin c hc), fun input hinput => ?_⟩
      · rwa [hinputs]
      · rw [hinputs]
        exact h.shaped.member m hm
      · rw [hinputs]
        exact hpermits.old
      · obtain ⟨slot, hslot, rfl⟩ := List.mem_map.mp hinput
        exact lim.builtin_mem _ (hbuiltin _ (hneeded slot hslot))

end Memo

end QueryPlanner
