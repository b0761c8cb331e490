/-
# Rules propose what denotes the same bag

Every rule of the standard registry proposes, for a member of a group, operators that denote
the bag of the group.

* `Proposal.Means` : what is proposed for a group denotes the bag of the group;
* `Rule.IsSound` : all proposals of a rule do, in every memo that has a meaning;
* `Rule.isSound_of_mem_standard` : the standard rules are sound.
-/
import QueryPlanner.Proofs.Bag.Equations
import QueryPlanner.Proofs.Memo.Meaning
import QueryPlanner.Registry.Standard

namespace QueryPlanner

variable {ν : Type} {source : RowSource} {den : GroupId → Bag} {n : Nat}

/-! ## Proposals -/

mutual

/-- The bag that a proposed input denotes, in a memo of `n` groups. -/
def Source.Means (source : RowSource) (den : GroupId → Bag) (n : Nat) : Source → Bag → Prop
  | .group g, b => g < n ∧ den g = b
  | .fresh op children, b =>
      ∃ bags, MeanList source den n children bags ∧ Operator.Denotes source op bags b

/-- The bags that proposed inputs denote. -/
def Source.MeanList (source : RowSource) (den : GroupId → Bag) (n : Nat) :
    List Source → List Bag → Prop
  | [], bags => bags = []
  | s :: rest, bags =>
      ∃ b bs, bags = b :: bs ∧ s.Means source den n b ∧ MeanList source den n rest bs

end

/-- What is proposed denotes a bag, in a memo of `n` groups. -/
def Proposal.Means (source : RowSource) (den : GroupId → Bag) (n : Nat) (out : Bag) :
    Proposal → Prop
  | .substitution op children =>
      (∀ g ∈ children, g < n) ∧ Operator.Denotes source op (children.map den) out
  | .compound op children =>
      ∃ bags, Source.MeanList source den n children bags ∧ Operator.Denotes source op bags out
  | .physical op c inputs =>
      (∀ slot ∈ inputs, slot.1 < n) ∧
        Operator.Denotes source op ((inputs.map Prod.fst).map den) out ∧
        IsImplemented op c (inputs.map Prod.snd)

namespace Rule

/-- A rule proposes, for a member, what denotes the bag of the member's group. -/
def IsSound (rule : Rule ν) : Prop :=
  ∀ (catalog : Catalog ν) (memo : Memo ν) (source : RowSource) (den : GroupId → Bag) (m : Member),
    memo.Means source den → m.Means source den memo.groups.size →
      rule.pattern.isMetBy memo m = true → ∀ p ∈ rule.propose catalog memo m,
        p.Means source den memo.groups.size (den m.group)

/-! ## What rules look at -/

/-- A member that meets a pattern for logical operators is logical, and of the kind of the
pattern. -/
theorem isMetBy_logicalOver {memo : Memo ν} {kind : OperatorKind} {ps : List Pattern} {m : Member}
    (h : (Pattern.logicalOver kind ps).isMetBy memo m = true) :
    m.op.kind = kind ∧ m.convention = .logical := by
  unfold Pattern.logicalOver Pattern.isMetBy at h
  simp only [Option.all_some, Bool.and_eq_true, decide_eq_true_eq] at h
  exact ⟨h.1.1.symm, h.1.2.symm⟩

/-- The logical members of a group denote its bag. -/
theorem means_of_mem_logicalMembers {memo : Memo ν} (h : memo.Means source den) {g : GroupId}
    {m : Member} (hm : m ∈ logicalMembers memo g) :
    m.Means source den memo.groups.size ∧ den m.group = den g := by
  obtain ⟨i, hi, rfl⟩ := List.mem_map.mp (List.mem_filter.mp hm).1
  obtain ⟨hlt, hden⟩ := h.listed g i hi
  exact ⟨(h.member i hlt).1, hden⟩

/-- The only input of a member, read off the bags of its inputs. -/
theorem eq_singleton_of_map {children rest : List GroupId} {child : GroupId} {b : Bag}
    (hm : children = child :: rest) (h : children.map den = [b]) :
    children = [child] ∧ den child = b := by
  rw [hm, List.map_cons, List.cons.injEq, List.map_eq_nil_iff] at h
  exact ⟨hm.trans (by rw [h.2]), h.1⟩

/-! ## Transformations -/

theorem isSound_commuteJoin : (commuteJoin : Rule ν).IsSound := by
  intro catalog memo source den m hmemo hm _ p hp
  have hop := hm.denotes
  unfold commuteJoin at hp
  dsimp only at hp
  split at hp
  · next c left right hmop hchildren =>
      rw [List.mem_singleton] at hp
      subst hp
      rw [hmop, hchildren] at hop
      obtain ⟨l, r, hbags, htyped, hcanonical, hout⟩ := hop.join_inv
      simp only [List.map_cons, List.map_nil, List.cons.injEq, and_true] at hbags
      obtain ⟨rfl, rfl⟩ := hbags
      have hleft : left < memo.groups.size := hm.children_lt left (by simp [hchildren])
      have hright : right < memo.groups.size := hm.children_lt right (by simp [hchildren])
      rw [hmemo.rowType left hleft, hmemo.rowType right hright, hmemo.rowType _ hm.group_lt, hout]
      obtain ⟨hswapped, -⟩ := Bag.hasType_swapped htyped
      -- the join with exchanged inputs is new, and the projection over it is the member's bag
      refine ⟨[(den right).join .inner (c.mapColumns (swapIndex (den left).rowType.width
        (den right).rowType.width)) (den left)], ?_, ?_⟩
      · refine ⟨_, [], rfl, ⟨[den right, den left], ?_, .join hswapped ?_⟩, rfl⟩
        · exact ⟨_, _, rfl, ⟨hright, rfl⟩, _, _, rfl, ⟨hleft, rfl⟩, rfl⟩
        · rw [Expr.mapColumns_eq_substitute]
          exact Expr.canonical_substitute c hcanonical fun _ _ => rfl
      · rw [← Bag.project_join_swapped htyped]
        refine .project _ fun e he => ?_
        obtain ⟨⟨f, i⟩, -, rfl⟩ := List.mem_map.mp he
        rfl
  · exact absurd hp List.not_mem_nil

theorem isSound_filterIntoJoin : (filterIntoJoin : Rule ν).IsSound := by
  intro catalog memo source den m hmemo hm _ p hp
  have hop := hm.denotes
  unfold filterIntoJoin at hp
  dsimp only at hp
  split at hp
  · next predicate child rest hmop hchildren =>
      obtain ⟨below, hbelow, hp⟩ := List.mem_filterMap.mp hp
      obtain ⟨hmeans, hgroup⟩ := means_of_mem_logicalMembers hmemo hbelow
      have hjoin := hmeans.denotes
      split at hp
      · next c hbop =>
          cases hp
          rw [hmop] at hop
          obtain ⟨b, hbags, htyped, hcanonical, hout⟩ := hop.filter_inv
          obtain ⟨-, rfl⟩ := eq_singleton_of_map hchildren hbags
          rw [hbop, hgroup] at hjoin
          obtain ⟨l, r, hbags, hctyped, hccanonical, hchild⟩ := hjoin.join_inv
          rw [hchild] at htyped hout
          -- the conjuncts of the join's condition come first, without those that are TRUE
          have hcs := (Expr.conjoins_conjuncts c).filter
          have hps := Expr.conjoins_conjuncts predicate
          obtain ⟨hconj, hholds⟩ := hctyped.conjunction htyped hcs hps
          refine ⟨hmeans.children_lt, ?_⟩
          rw [hbags, hout, Bag.filter_join hholds]
          exact .join hconj (Expr.canonical_conjunction
            (List.forall_mem_append.mpr ⟨hcs.canonical hccanonical, hps.canonical hcanonical⟩))
      · cases hp
  · exact absurd hp List.not_mem_nil

theorem isSound_mergeFilters : (mergeFilters : Rule ν).IsSound := by
  intro catalog memo source den m hmemo hm _ p hp
  have hop := hm.denotes
  unfold mergeFilters at hp
  dsimp only at hp
  split at hp
  · next outer child rest hmop hchildren =>
      obtain ⟨below, hbelow, hp⟩ := List.mem_filterMap.mp hp
      obtain ⟨hmeans, hgroup⟩ := means_of_mem_logicalMembers hmemo hbelow
      have hfilter := hmeans.denotes
      split at hp
      · next inner hbop =>
          cases hp
          rw [hmop] at hop
          obtain ⟨b, hbags, htyped, hcanonical, hout⟩ := hop.filter_inv
          obtain ⟨-, rfl⟩ := eq_singleton_of_map hchildren hbags
          rw [hbop, hgroup] at hfilter
          obtain ⟨b, hbags, hityped, hicanonical, hchild⟩ := hfilter.filter_inv
          rw [hchild] at htyped hout
          have his := Expr.conjoins_conjuncts inner
          have hos := Expr.conjoins_conjuncts outer
          obtain ⟨hconj, hholds⟩ := hityped.conjunction htyped his hos
          refine ⟨hmeans.children_lt, ?_⟩
          rw [hbags, hout, Bag.filter_filter hholds]
          exact .filter hconj (Expr.canonical_conjunction
            (List.forall_mem_append.mpr ⟨his.canonical hicanonical, hos.canonical hcanonical⟩))
      · cases hp
  · exact absurd hp List.not_mem_nil

/-- The members of another group of the same bag may be proposed. -/
theorem means_of_mem_alternatives {memo : Memo ν} (h : memo.Means source den) {g : GroupId}
    {out : Bag} (hden : den g = out) {p : Proposal} (hp : p ∈ alternatives memo g) :
    p.Means source den memo.groups.size out := by
  obtain ⟨m, hm, rfl⟩ := List.mem_map.mp hp
  obtain ⟨hmeans, hgroup⟩ := means_of_mem_logicalMembers h hm
  refine ⟨hmeans.children_lt, ?_⟩
  rw [← hden, ← hgroup]
  exact hmeans.denotes

/-- A trivial projection changes nothing. -/
theorem project_of_isTrivial {memo : Memo ν} (h : memo.Means source den) {exprs : List Expr}
    {t : RowType} {g : GroupId} (hg : g < memo.groups.size)
    (htrivial : isTrivial memo exprs t g = true)
    (typed : Bag.Projects exprs (den g).rowType t) : (den g).project exprs t typed = den g := by
  unfold isTrivial at htrivial
  rw [h.rowType g hg] at htrivial
  simp only [Bool.and_eq_true, decide_eq_true_eq] at htrivial
  obtain ⟨⟨hlen, rfl⟩, hcolumns⟩ := htrivial
  exact Bag.project_columns hlen hcolumns typed

theorem isSound_dropProjection : (dropProjection : Rule ν).IsSound := by
  intro catalog memo source den m hmemo hm _ p hp
  have hop := hm.denotes
  unfold dropProjection at hp
  dsimp only at hp
  split at hp
  · next exprs t child rest hmop hchildren =>
      split at hp
      · next htrivial =>
          rw [hmop] at hop
          obtain ⟨b, htyped, hbags, -, hout⟩ := hop.project_inv
          obtain ⟨hsingle, rfl⟩ := eq_singleton_of_map hchildren hbags
          have hlt : child < memo.groups.size := hm.children_lt child (by simp [hsingle])
          rw [hout, project_of_isTrivial hmemo hlt htrivial htyped]
          exact means_of_mem_alternatives hmemo rfl hp
      · exact absurd hp List.not_mem_nil
  · exact absurd hp List.not_mem_nil

theorem isSound_mergeProjections : (mergeProjections : Rule ν).IsSound := by
  intro catalog memo source den m hmemo hm _ p hp
  have hop := hm.denotes
  unfold mergeProjections at hp
  dsimp only at hp
  split at hp
  · next outer t child rest hmop hchildren =>
      obtain ⟨below, hbelow, hp⟩ := List.mem_flatMap.mp hp
      obtain ⟨hmeans, hgroup⟩ := means_of_mem_logicalMembers hmemo hbelow
      have hproject := hmeans.denotes
      rw [hmop] at hop
      obtain ⟨b, htyped, hbags, hcanonical, hout⟩ := hop.project_inv
      obtain ⟨-, rfl⟩ := eq_singleton_of_map hchildren hbags
      unfold mergeInto at hp
      split at hp
      · next inner t' hbop =>
          rw [hbop, hgroup] at hproject
          obtain ⟨b, hityped, hbags, hicanonical, hchild⟩ := hproject.project_inv
          have htyped' : Bag.Projects outer t' t := by
            rw [hchild] at htyped
            exact htyped
          split at hp
          · exact absurd hp List.not_mem_nil
          · next merged hmerged =>
              obtain ⟨hmtyped, hvalues⟩ := Bag.projects_inline hityped htyped' hmerged
              -- the merged projection of the input is the outer projection of the inner one
              have hcompose : den m.group = b.project merged t hmtyped := by
                rw [hout, ← Bag.project_project hityped htyped' hmtyped hvalues]
                congr 1
              have hcomposed : Proposal.Means source den memo.groups.size (den m.group)
                  (.substitution (.project merged t) below.children) := by
                refine ⟨hmeans.children_lt, ?_⟩
                rw [hbags, hcompose]
                exact .project hmtyped
                  (Expr.canonical_of_inlineList hmerged hicanonical hcanonical)
              dsimp only at hp
              split at hp
              · next input tail hbchildren =>
                  split at hp
                  -- merged into a trivial one, the input itself is proposed in all its forms
                  · next htrivial =>
                      obtain ⟨hsingle, rfl⟩ := eq_singleton_of_map hbchildren hbags
                      have hlt : input < memo.groups.size :=
                        hmeans.children_lt input (by simp [hsingle])
                      rw [hcompose, project_of_isTrivial hmemo hlt htrivial hmtyped]
                      exact means_of_mem_alternatives hmemo rfl hp
                  · rw [List.mem_singleton] at hp
                    rw [hp]
                    exact hcomposed
              · rw [List.mem_singleton] at hp
                rw [hp]
                exact hcomposed
      · exact absurd hp List.not_mem_nil
  · exact absurd hp List.not_mem_nil

/-! ## Implementations -/

/-- An operator that requires one convention of all its inputs means what it means as a logical
one, if it is implemented so. -/
theorem means_uniform {memo : Memo ν} {m : Member} (hm : m.Means source den memo.groups.size)
    {c : Convention}
    (himplemented : ∀ inputs, inputs.length = m.op.arity → (∀ i ∈ inputs, i = c) →
      IsImplemented m.op c inputs) :
    (Proposal.uniform m.op c m.children).Means source den memo.groups.size (den m.group) := by
  have harity : m.children.length = m.op.arity := by
    rw [← hm.denotes.length_inputs, List.length_map]
  have hgroups : (m.children.map fun g => (g, c)).map Prod.fst = m.children := by
    rw [List.map_map]
    exact List.map_id _
  refine ⟨fun slot hslot => ?_, ?_, himplemented _ ?_ fun i hi => ?_⟩
  · obtain ⟨g, hg, rfl⟩ := List.mem_map.mp hslot
    exact hm.children_lt g hg
  · rw [hgroups]
    exact hm.denotes
  · rw [List.length_map, List.length_map, harity]
  · obtain ⟨slot, hslot, rfl⟩ := List.mem_map.mp hi
    obtain ⟨g, -, rfl⟩ := List.mem_map.mp hslot
    rfl

theorem isSound_pull {kind : OperatorKind} (hkind : kind ≠ .converter) :
    (pull kind : Rule ν).IsSound := by
  intro catalog memo source den m _ hm hmet p hp
  obtain ⟨hmop, -⟩ := isMetBy_logicalOver hmet
  unfold pull at hp
  dsimp only at hp
  split at hp
  · exact absurd hp List.not_mem_nil
  · rw [List.mem_singleton] at hp
    subst hp
    refine means_uniform hm fun inputs hlen hall => ?_
    rw [List.eq_replicate_iff.mpr ⟨hlen, hall⟩]
    exact .pulled (by rw [hmop]; exact hkind)

theorem isSound_scanFederated : (scanFederated : Rule ν).IsSound := by
  intro catalog memo source den m _ hm _ p hp
  have hop := hm.denotes
  unfold scanFederated at hp
  dsimp only at hp
  split at hp
  · next hscan =>
      rw [List.mem_singleton] at hp
      subst hp
      unfold scansFederated at hscan
      split at hscan
      · next table t hmop =>
          -- a scan has no inputs, so that none are left out
          have hnone : m.children = [] := by
            have hlen := hop.length_inputs
            rw [hmop, List.length_map] at hlen
            exact List.eq_nil_of_length_eq_zero hlen
          rw [← hnone]
          refine means_uniform hm fun inputs hlen _ => ?_
          rw [hmop] at hlen ⊢
          rw [List.eq_nil_of_length_eq_zero hlen]
          exact .federatedScan table t
      · cases hscan
  · exact absurd hp List.not_mem_nil

/-- The conventions that filters and projections stay in. -/
theorem isSound_generate {name : String} {kind : OperatorKind} {c : Convention}
    (hc : c = .compiled ∨ c = .compiledRecord) : (generate name kind c : Rule ν).IsSound := by
  intro catalog memo source den m _ hm _ p hp
  have hone : ∀ inputs : List Convention, inputs.length = 1 → (∀ i ∈ inputs, i = c) →
      inputs = [c] := fun inputs hlen hall => List.eq_replicate_iff.mpr ⟨hlen, hall⟩
  unfold generate at hp
  dsimp only at hp
  split at hp
  · next predicate hmop =>
      rw [List.mem_singleton] at hp
      subst hp
      refine means_uniform hm fun inputs hlen hall => ?_
      rw [hmop] at hlen ⊢
      rw [hone inputs hlen hall]
      rcases hc with rfl | rfl
      · exact .filter .positional predicate
      · exact .filter .record predicate
  · next exprs t hmop =>
      rw [List.mem_singleton] at hp
      subst hp
      refine means_uniform hm fun inputs hlen hall => ?_
      rw [hmop] at hlen ⊢
      rw [hone inputs hlen hall]
      rcases hc with rfl | rfl
      · exact .project .positional exprs t
      · exact .project .record exprs t
  · next condition left right hmop hchildren =>
      split at hp
      · rw [List.mem_singleton] at hp
        subst hp
        have hop := hm.denotes
        have hlt := hm.children_lt
        rw [hchildren] at hop hlt
        refine ⟨fun slot hslot => ?_, hop, ?_⟩
        · rcases List.mem_pair.mp hslot with rfl | rfl
          · exact hlt left List.mem_cons_self
          · exact hlt right (List.mem_cons_of_mem _ List.mem_cons_self)
        · rw [hmop]
          exact .compiledJoin condition
      · exact absurd hp List.not_mem_nil
  · exact absurd hp List.not_mem_nil

/-- The standard rules look at logical members only. -/
theorem logical_of_mem_standard {rule : Rule ν} (h : rule ∈ Rule.standard) :
    ∃ kind ps, rule.pattern = .logicalOver kind ps := by
  simp only [Rule.standard, transformations, implementations, List.map_cons,
    List.map_nil, List.mem_append, List.mem_cons, List.not_mem_nil, or_false] at h
  rcases h with (rfl | rfl | rfl | rfl | rfl) | (rfl | rfl | rfl | rfl | rfl | rfl | rfl) |
    (rfl | rfl | rfl | rfl | rfl | rfl) <;> exact ⟨_, _, rfl⟩

/-- The standard rules propose what denotes the bag of the group it is proposed for. -/
theorem isSound_of_mem_standard {rule : Rule ν} (h : rule ∈ Rule.standard) : rule.IsSound := by
  simp only [Rule.standard, transformations, implementations, List.map_cons, List.map_nil,
    List.mem_append, List.mem_cons, List.not_mem_nil, or_false] at h
  rcases h with (rfl | rfl | rfl | rfl | rfl) | (rfl | rfl | rfl | rfl | rfl | rfl | rfl) |
    (rfl | rfl | rfl | rfl | rfl | rfl)
  · exact isSound_commuteJoin
  · exact isSound_filterIntoJoin
  · exact isSound_mergeFilters
  · exact isSound_mergeProjections
  · exact isSound_dropProjection
  · exact isSound_pull (by decide)
  · exact isSound_pull (by decide)
  · exact isSound_pull (by decide)
  · exact isSound_pull (by decide)
  · exact isSound_pull (by decide)
  · exact isSound_pull (by decide)
  · exact isSound_pull (by decide)
  · exact isSound_scanFederated
  · exact isSound_generate (Or.inl rfl)
  · exact isSound_generate (Or.inl rfl)
  · exact isSound_generate (Or.inl rfl)
  · exact isSound_generate (Or.inr rfl)
  · exact isSound_generate (Or.inr rfl)

end Rule

end QueryPlanner
