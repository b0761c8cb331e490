/-
# What the standard rules propose

Said once for all standard rules, by one case for each kind of proposal, so that what is kept by
them is shown case by case.

* `Suggests` : what is proposed for a member;
* `suggests_of_mem_standard` : the standard rules propose nothing else.
-/
import QueryPlanner.Proofs.Proposal
import QueryPlanner.Proofs.Rule

namespace QueryPlanner

namespace Rule

variable {ν : Type}

/-- The conventions of what the standard rules implement. -/
def implemented : List Convention := [.iterator, .compiled, .compiledRecord, .federated]

/-- What may be proposed for a member of a memo. -/
inductive Suggests (memo : Memo ν) (m : Member) : Proposal → Prop
  /-- An inner join with its inputs exchanged, under a projection that restores the order. -/
  | commute {condition : Expr} {left right : GroupId} (hop : m.op = .join .inner condition)
      (hchildren : m.children = [left, right]) :
      Suggests memo m (.compound
        (.project (restoreOrder (memo.group left).rowType.width (memo.group right).rowType.width
          (memo.group m.group).rowType) (memo.group m.group).rowType)
        [.fresh (.join .inner (condition.mapColumns (swapIndex (memo.group left).rowType.width
          (memo.group right).rowType.width))) [.group right, .group left]])
  /-- An inner join below a filter, with the predicate added to its condition. -/
  | push {predicate condition : Expr} {child : GroupId} {below : Member}
      (hop : m.op = .filter predicate) (hchild : child ∈ m.children)
      (hbelow : below ∈ logicalMembers memo child) (hcondition : below.op = .join .inner condition) :
      Suggests memo m (.substitution (.join .inner (.conjunction
        (condition.conjuncts.filter (!isTrueLiteral ·) ++ predicate.conjuncts))) below.children)
  /-- A filter below a filter, with the predicates of both. -/
  | merge {outer inner : Expr} {child : GroupId} {below : Member} (hop : m.op = .filter outer)
      (hchild : child ∈ m.children) (hbelow : below ∈ logicalMembers memo child)
      (hinner : below.op = .filter inner) :
      Suggests memo m (.substitution (.filter (.conjunction (inner.conjuncts ++ outer.conjuncts)))
        below.children)
  /-- A projection below a projection, with the expressions of both composed. -/
  | compose {outer inner merged : List Expr} {t t' : RowType} {child : GroupId} {below : Member}
      (hop : m.op = .project outer t) (hchild : child ∈ m.children)
      (hbelow : below ∈ logicalMembers memo child) (hinner : below.op = .project inner t')
      (hmerged : Expr.inlineList inner outer = some merged) :
      Suggests memo m (.substitution (.project merged t) below.children)
  /-- A member of the input of a trivial projection. -/
  | drop {exprs : List Expr} {t : RowType} {child : GroupId} {below : Member}
      (hop : m.op = .project exprs t) (hchild : child ∈ m.children)
      (htrivial : isTrivial memo exprs t child = true) (hbelow : below ∈ logicalMembers memo child) :
      Suggests memo m (.substitution below.op below.children)
  /-- A member of the input of a projection below a projection, where both together are trivial. -/
  | dropBoth {outer inner merged : List Expr} {t t' : RowType} {child input : GroupId}
      {below lower : Member} (hop : m.op = .project outer t) (hchild : child ∈ m.children)
      (hbelow : below ∈ logicalMembers memo child) (hinner : below.op = .project inner t')
      (hmerged : Expr.inlineList inner outer = some merged) (hinput : input ∈ below.children)
      (htrivial : isTrivial memo merged t input = true) (hlower : lower ∈ logicalMembers memo input) :
      Suggests memo m (.substitution lower.op lower.children)
  /-- The operator of the member itself, to be run by code that there is for it. -/
  | implement {c : Convention} {inputs : List (GroupId × Convention)} (hc : c ∈ implemented)
      (hinputs : inputs.map Prod.fst = m.children) (hneeded : ∀ slot ∈ inputs, slot.2 ∈ implemented)
      (hcode : IsImplemented m.op c (inputs.map Prod.snd)) :
      Suggests memo m (.physical m.op c inputs)

variable {memo : Memo ν} {catalog : Catalog ν} {m : Member} {p : Proposal}

/-- The logical members of a group are members of it. -/
theorem exists_of_mem_logicalMembers (h : memo.Settled) {g : GroupId}
    (hm : m ∈ logicalMembers memo g) : ∃ i ∈ (memo.group g).members, i < memo.members.size ∧
      memo.member i = m ∧ m.convention = .logical := by
  obtain ⟨hlisted, hlogical⟩ := List.mem_filter.mp hm
  obtain ⟨i, hi, rfl⟩ := List.mem_map.mp hlisted
  exact ⟨i, hi, h.lt_of_mem_group hi, rfl, of_decide_eq_true hlogical⟩

theorem suggests_uniform {c : Convention} (hc : c ∈ implemented)
    (hcode : IsImplemented m.op c (List.replicate m.children.length c)) :
    Suggests memo m (.uniform m.op c m.children) := by
  refine .implement hc ?_ (fun slot hslot => ?_) ?_
  · rw [List.map_map]
    exact List.map_id _
  · obtain ⟨g, -, rfl⟩ := List.mem_map.mp hslot
    exact hc
  · rw [List.map_map]
    rw [← List.map_const] at hcode
    exact hcode

theorem suggests_of_mem_commuteJoin (hp : p ∈ commuteJoin.propose catalog memo m) :
    Suggests memo m p := by
  unfold commuteJoin at hp
  dsimp only at hp
  split at hp
  · next hop hchildren =>
      rw [List.mem_singleton.mp hp]
      exact .commute hop hchildren
  · exact absurd hp List.not_mem_nil

/-- What is proposed for a filter is read off the inner joins in its input. -/
theorem exists_of_mem_filterIntoJoin (hp : p ∈ filterIntoJoin.propose catalog memo m) :
    ∃ predicate condition child below, m.op = .filter predicate ∧ child ∈ m.children ∧
      below ∈ logicalMembers memo child ∧ below.op = .join .inner condition ∧
        p = .substitution (.join .inner (.conjunction
          (condition.conjuncts.filter (!isTrueLiteral ·) ++ predicate.conjuncts))) below.children := by
  unfold filterIntoJoin at hp
  dsimp only at hp
  split at hp
  · next hop hchildren =>
      obtain ⟨below, hbelow, hp⟩ := List.mem_filterMap.mp hp
      split at hp
      · next hcondition =>
          cases hp
          exact ⟨_, _, _, below, hop, hchildren ▸ List.mem_cons_self, hbelow, hcondition, rfl⟩
      · cases hp
  · exact absurd hp List.not_mem_nil

/-- For a filter over an inner join, the join is proposed with the predicate added to its condition. -/
theorem mem_propose_filterIntoJoin {predicate condition : Expr} {g : GroupId} {i : MemberId}
    (hop : m.op = .filter predicate) (hchildren : m.children = [g])
    (hi : i ∈ (memo.group g).members)
    (hcondition : (memo.member i).op = .join .inner condition)
    (hlogical : (memo.member i).convention = .logical) :
    .substitution (.join .inner (.conjunction
      (condition.conjuncts.filter (!isTrueLiteral ·) ++ predicate.conjuncts)))
        (memo.member i).children ∈ filterIntoJoin.propose catalog memo m := by
  unfold filterIntoJoin
  dsimp only
  rw [hop, hchildren]
  refine List.mem_filterMap.mpr ⟨memo.member i, List.mem_filter.mpr ⟨?_, ?_⟩, ?_⟩
  · exact List.mem_map_of_mem hi
  · exact decide_eq_true hlogical
  · rw [hcondition]

theorem suggests_of_mem_filterIntoJoin (hp : p ∈ filterIntoJoin.propose catalog memo m) :
    Suggests memo m p := by
  obtain ⟨_, _, _, _, hop, hchild, hbelow, hcondition, rfl⟩ := exists_of_mem_filterIntoJoin hp
  exact .push hop hchild hbelow hcondition

/-- What is proposed for a filter is read off the filters in its input. -/
theorem exists_of_mem_mergeFilters (hp : p ∈ mergeFilters.propose catalog memo m) :
    ∃ outer inner child below, m.op = .filter outer ∧ child ∈ m.children ∧
      below ∈ logicalMembers memo child ∧ below.op = .filter inner ∧
        p = .substitution (.filter (.conjunction (inner.conjuncts ++ outer.conjuncts)))
          below.children := by
  unfold mergeFilters at hp
  dsimp only at hp
  split at hp
  · next hop hchildren =>
      obtain ⟨below, hbelow, hp⟩ := List.mem_filterMap.mp hp
      split at hp
      · next hinner =>
          cases hp
          exact ⟨_, _, _, below, hop, hchildren ▸ List.mem_cons_self, hbelow, hinner, rfl⟩
      · cases hp
  · exact absurd hp List.not_mem_nil

/-- Of a filter over another one, their merger is proposed. -/
theorem mem_propose_mergeFilters {outer inner : Expr} {g : GroupId} {i : MemberId}
    (hop : m.op = .filter outer) (hchildren : m.children = [g]) (hi : i ∈ (memo.group g).members)
    (hinner : (memo.member i).op = .filter inner) (hlogical : (memo.member i).convention = .logical) :
    .substitution (.filter (.conjunction (inner.conjuncts ++ outer.conjuncts)))
      (memo.member i).children ∈ mergeFilters.propose catalog memo m := by
  unfold mergeFilters
  dsimp only
  rw [hop, hchildren]
  refine List.mem_filterMap.mpr ⟨memo.member i, List.mem_filter.mpr ⟨?_, ?_⟩, ?_⟩
  · exact List.mem_map_of_mem hi
  · exact decide_eq_true hlogical
  · rw [hinner]

theorem suggests_of_mem_mergeFilters (hp : p ∈ mergeFilters.propose catalog memo m) :
    Suggests memo m p := by
  obtain ⟨_, _, _, _, hop, hchild, hbelow, hinner, rfl⟩ := exists_of_mem_mergeFilters hp
  exact .merge hop hchild hbelow hinner

theorem suggests_of_mem_mergeProjections (hp : p ∈ mergeProjections.propose catalog memo m) :
    Suggests memo m p := by
  unfold mergeProjections at hp
  dsimp only at hp
  split at hp
  · next hop hchildren =>
      obtain ⟨below, hbelow, hp⟩ := List.mem_flatMap.mp hp
      have hchild := hchildren ▸ List.mem_cons_self
      unfold mergeInto at hp
      split at hp
      · next hinner =>
          split at hp
          · exact absurd hp List.not_mem_nil
          · next merged hmerged =>
              dsimp only at hp
              split at hp
              · next input rest hbelowChildren =>
                  split at hp
                  · next htrivial =>
                      obtain ⟨lower, hlower, rfl⟩ := List.mem_map.mp hp
                      exact .dropBoth hop hchild hbelow hinner hmerged
                        (hbelowChildren ▸ List.mem_cons_self) htrivial hlower
                  · rw [List.mem_singleton.mp hp]
                    exact .compose hop hchild hbelow hinner hmerged
              · rw [List.mem_singleton.mp hp]
                exact .compose hop hchild hbelow hinner hmerged
      · exact absurd hp List.not_mem_nil
  · exact absurd hp List.not_mem_nil

theorem suggests_of_mem_dropProjection (hp : p ∈ dropProjection.propose catalog memo m) :
    Suggests memo m p := by
  unfold dropProjection at hp
  dsimp only at hp
  split at hp
  · next hop hchildren =>
      split at hp
      · next htrivial =>
          obtain ⟨below, hbelow, rfl⟩ := List.mem_map.mp hp
          exact .drop hop (hchildren ▸ List.mem_cons_self) htrivial hbelow
      · exact absurd hp List.not_mem_nil
  · exact absurd hp List.not_mem_nil

theorem suggests_of_mem_pull {kind : OperatorKind} (hkind : kind ≠ .converter)
    (hmet : (pull kind : Rule ν).pattern.isMetBy memo m = true)
    (hlength : m.children.length = m.op.arity)
    (hp : p ∈ (pull kind : Rule ν).propose catalog memo m) : Suggests memo m p := by
  obtain ⟨hop, -⟩ := isMetBy_logicalOver hmet
  unfold pull at hp
  dsimp only at hp
  split at hp
  · exact absurd hp List.not_mem_nil
  · rw [List.mem_singleton.mp hp]
    refine suggests_uniform (by decide) ?_
    rw [hlength]
    exact .pulled (hop ▸ hkind)

theorem suggests_of_mem_scanFederated (hlength : m.children.length = m.op.arity)
    (hp : p ∈ (scanFederated : Rule ν).propose catalog memo m) : Suggests memo m p := by
  unfold scanFederated at hp
  dsimp only at hp
  split at hp
  · next hforeign =>
      unfold scansFederated at hforeign
      split at hforeign
      · next table t hop =>
          rw [hop] at hlength
          have hnone : m.children = [] := List.eq_nil_of_length_eq_zero hlength
          rw [List.mem_singleton.mp hp, ← hnone]
          refine suggests_uniform (by decide) ?_
          rw [hop, hnone]
          exact .federatedScan table t
      · cases hforeign
  · exact absurd hp List.not_mem_nil

theorem suggests_of_mem_generate {name : String} {kind : OperatorKind} (form : Implementor.RowForm)
    (hlength : m.children.length = m.op.arity)
    (hp : p ∈ (generate name kind form.convention : Rule ν).propose catalog memo m) :
    Suggests memo m p := by
  have hc : form.convention ∈ implemented := by
    cases form with
    | positional => decide
    | record => decide
  unfold generate at hp
  dsimp only at hp
  split at hp
  · next predicate hop =>
      rw [List.mem_singleton.mp hp]
      refine suggests_uniform hc ?_
      rw [hlength, hop]
      exact .filter form predicate
  · next exprs t hop =>
      rw [List.mem_singleton.mp hp]
      refine suggests_uniform hc ?_
      rw [hlength, hop]
      exact .project form exprs t
  · next condition left right hop hchildren =>
      split at hp
      · rw [List.mem_singleton.mp hp]
        refine .implement (by decide) hchildren.symm (by simp [implemented]) ?_
        rw [hop]
        exact .compiledJoin condition
      · exact absurd hp List.not_mem_nil
  · exact absurd hp List.not_mem_nil

/-- The standard rules propose nothing else for a member of their shape, over as many inputs as its
operator takes. -/
theorem suggests_of_mem_standard {rule : Rule ν} (h : rule ∈ Rule.standard)
    (hmet : rule.pattern.isMetBy memo m = true) (hlength : m.children.length = m.op.arity)
    (hp : p ∈ rule.propose catalog memo m) : Suggests memo m p := by
  simp only [Rule.standard, transformations, implementations, List.map_cons, List.map_nil,
    List.mem_append, List.mem_cons, List.not_mem_nil, or_false] at h
  rcases h with (rfl | rfl | rfl | rfl | rfl) | (rfl | rfl | rfl | rfl | rfl | rfl | rfl) |
    (rfl | rfl | rfl | rfl | rfl | rfl)
  · exact suggests_of_mem_commuteJoin hp
  · exact suggests_of_mem_filterIntoJoin hp
  · exact suggests_of_mem_mergeFilters hp
  · exact suggests_of_mem_mergeProjections hp
  · exact suggests_of_mem_dropProjection hp
  all_goals first
    | exact suggests_of_mem_pull (by decide) hmet hlength hp
    | exact suggests_of_mem_scanFederated hlength hp
    | exact suggests_of_mem_generate .positional hlength hp
    | exact suggests_of_mem_generate .record hlength hp

end Rule

end QueryPlanner
