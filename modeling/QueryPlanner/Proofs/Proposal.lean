/-
# What rules may propose

A rule names groups of the memo that it looks at, and leaves converters to the search, which alone
knows what conversions there are. The standard rules do so.

* `Proposal.groups` : the groups that are named in a proposal;
* `Rule.IsRegular` : a rule that names groups which exist, and proposes no converter;
* `Rule.isRegular_of_mem_standard` : the standard rules are regular.
-/
import QueryPlanner.Proofs.Memo.Consistency
import QueryPlanner.Proofs.Rule

namespace QueryPlanner

variable {ν : Type}

mutual

/-- The groups that are named in a proposed input. -/
def Source.groups : Source → List GroupId
  | .group g => [g]
  | .fresh _ children => groupsOfList children

/-- The groups that are named in proposed inputs. -/
def Source.groupsOfList : List Source → List GroupId
  | [] => []
  | s :: rest => s.groups ++ groupsOfList rest

end

/-- The groups that are named in a proposal. -/
def Proposal.groups : Proposal → List GroupId
  | .substitution _ children => children
  | .compound _ children => Source.groupsOfList children
  | .physical _ _ inputs => inputs.map Prod.fst

/-- Whether a converter is proposed that is to be run. -/
def Proposal.IsConverter : Proposal → Prop
  | .physical (.converter _) _ _ => True
  | _ => False

/-- A proposal for a memo of `n` groups that names groups which exist, since there is nothing to look
up for other numbers, and that is no converter. -/
structure Proposal.IsRegular (n : Nat) (p : Proposal) : Prop where
  groups_lt : ∀ g ∈ p.groups, g < n
  not_isConverter : ¬ p.IsConverter

/-- A proposal stays regular when there are more groups. -/
theorem Proposal.IsRegular.mono {n n' : Nat} {p : Proposal} (h : p.IsRegular n) (hn : n ≤ n') :
    p.IsRegular n' :=
  ⟨fun g hg => Nat.lt_of_lt_of_le (h.groups_lt g hg) hn, h.not_isConverter⟩

namespace Rule

/-- A rule all of whose proposals for the members of a memo are regular. -/
def IsRegular (catalog : Catalog ν) (rule : Rule ν) : Prop :=
  ∀ memo : Memo ν, memo.Settled → ∀ m < memo.members.size,
    rule.pattern.isMetBy memo (memo.member m) = true →
      ∀ p ∈ rule.propose catalog memo (memo.member m), p.IsRegular memo.groups.size

section Standard

variable {memo : Memo ν} {catalog : Catalog ν}

/-- Members read groups that exist. -/
theorem children_lt (h : memo.Settled) {m : MemberId} (hm : m < memo.members.size) :
    ∀ g ∈ (memo.member m).children, g < memo.groups.size :=
  (h.member m hm).1.children_lt

theorem children_lt_of_mem_logicalMembers (h : memo.Settled) {g : GroupId} {m : Member}
    (hm : m ∈ logicalMembers memo g) : ∀ child ∈ m.children, child < memo.groups.size := by
  obtain ⟨i, hi, rfl⟩ := List.mem_map.mp (List.mem_filter.mp hm).1
  exact children_lt h (h.lt_of_mem_group hi)

theorem isRegular_substitution (op : Operator) {children : List GroupId} {n : Nat}
    (hlt : ∀ g ∈ children, g < n) : (Proposal.substitution op children).IsRegular n :=
  ⟨hlt, id⟩

theorem isRegular_of_mem_alternatives (h : memo.Settled) {g : GroupId} {p : Proposal}
    (hp : p ∈ alternatives memo g) : p.IsRegular memo.groups.size := by
  obtain ⟨m, hm, rfl⟩ := List.mem_map.mp hp
  exact isRegular_substitution m.op (children_lt_of_mem_logicalMembers h hm)

/-- An operator that is no converter may be proposed over groups that exist. -/
theorem isRegular_uniform {op : Operator} (hop : op.kind ≠ .converter) (c : Convention)
    {children : List GroupId} {n : Nat} (hlt : ∀ g ∈ children, g < n) :
    (Proposal.uniform op c children).IsRegular n where
  groups_lt g hg := by
    obtain ⟨slot, hslot, rfl⟩ := List.mem_map.mp hg
    obtain ⟨child, hchild, rfl⟩ := List.mem_map.mp hslot
    exact hlt child hchild
  not_isConverter hconverter := by
    cases op with
    | converter source => exact hop rfl
    | _ => exact hconverter

theorem isRegular_commuteJoin : (commuteJoin : Rule ν).IsRegular catalog := by
  intro memo h m hm _ p hp
  have hlt := children_lt h hm
  unfold commuteJoin at hp
  dsimp only at hp
  split at hp
  · next c left right _ hchildren =>
      rw [List.mem_singleton] at hp
      subst hp
      rw [hchildren] at hlt
      refine ⟨fun g hg => hlt g ?_, id⟩
      change g ∈ [right, left] at hg
      rw [List.mem_pair] at hg ⊢
      exact hg.symm
  · exact absurd hp List.not_mem_nil

theorem isRegular_filterIntoJoin : (filterIntoJoin : Rule ν).IsRegular catalog := by
  intro memo h m hm _ p hp
  unfold filterIntoJoin at hp
  dsimp only at hp
  split at hp
  · obtain ⟨below, hbelow, hp⟩ := List.mem_filterMap.mp hp
    split at hp
    · cases hp
      exact isRegular_substitution _ (children_lt_of_mem_logicalMembers h hbelow)
    · cases hp
  · exact absurd hp List.not_mem_nil

theorem isRegular_mergeFilters : (mergeFilters : Rule ν).IsRegular catalog := by
  intro memo h m hm _ p hp
  unfold mergeFilters at hp
  dsimp only at hp
  split at hp
  · obtain ⟨below, hbelow, hp⟩ := List.mem_filterMap.mp hp
    split at hp
    · cases hp
      exact isRegular_substitution _ (children_lt_of_mem_logicalMembers h hbelow)
    · cases hp
  · exact absurd hp List.not_mem_nil

theorem isRegular_dropProjection : (dropProjection : Rule ν).IsRegular catalog := by
  intro memo h m hm _ p hp
  unfold dropProjection at hp
  dsimp only at hp
  split at hp
  · split at hp
    · exact isRegular_of_mem_alternatives h hp
    · exact absurd hp List.not_mem_nil
  · exact absurd hp List.not_mem_nil

theorem isRegular_of_mem_mergeInto (h : memo.Settled) {outer : List Expr} {t : RowType}
    {below : Member} (hlt : ∀ g ∈ below.children, g < memo.groups.size) {p : Proposal}
    (hp : p ∈ mergeInto memo outer t below) : p.IsRegular memo.groups.size := by
  unfold mergeInto at hp
  split at hp
  · split at hp
    · exact absurd hp List.not_mem_nil
    · have hcomposed : ∀ merged, Proposal.IsRegular memo.groups.size
          (.substitution (.project merged t) below.children) := fun merged =>
        isRegular_substitution _ hlt
      dsimp only at hp
      split at hp
      · split at hp
        · exact isRegular_of_mem_alternatives h hp
        · rw [List.mem_singleton.mp hp]
          exact hcomposed _
      · rw [List.mem_singleton.mp hp]
        exact hcomposed _
  · exact absurd hp List.not_mem_nil

theorem isRegular_mergeProjections : (mergeProjections : Rule ν).IsRegular catalog := by
  intro memo h m hm _ p hp
  unfold mergeProjections at hp
  dsimp only at hp
  split at hp
  · obtain ⟨below, hbelow, hp⟩ := List.mem_flatMap.mp hp
    exact isRegular_of_mem_mergeInto h (children_lt_of_mem_logicalMembers h hbelow) hp
  · exact absurd hp List.not_mem_nil

theorem isRegular_pull {kind : OperatorKind} (hkind : kind ≠ .converter) :
    (pull kind : Rule ν).IsRegular catalog := by
  intro memo h m hm hmet p hp
  obtain ⟨hmop, -⟩ := isMetBy_logicalOver hmet
  unfold pull at hp
  dsimp only at hp
  split at hp
  · exact absurd hp List.not_mem_nil
  · rw [List.mem_singleton.mp hp]
    exact isRegular_uniform (by rw [hmop]; exact hkind) _ (children_lt h hm)

theorem isRegular_scanFederated : (scanFederated : Rule ν).IsRegular catalog := by
  intro memo h m hm hmet p hp
  obtain ⟨hmop, -⟩ := isMetBy_logicalOver hmet
  unfold scanFederated at hp
  dsimp only at hp
  split at hp
  · rw [List.mem_singleton.mp hp]
    exact isRegular_uniform (by rw [hmop]; decide) _ fun g hg => absurd hg List.not_mem_nil
  · exact absurd hp List.not_mem_nil

theorem isRegular_generate (name : String) {kind : OperatorKind} (c : Convention) :
    (generate name kind c : Rule ν).IsRegular catalog := by
  intro memo h m hm _ p hp
  have hlt := children_lt h hm
  unfold generate at hp
  dsimp only at hp
  split at hp
  · next hmop =>
      rw [List.mem_singleton.mp hp]
      exact isRegular_uniform (by rw [hmop]; exact OperatorKind.noConfusion) c hlt
  · next hmop =>
      rw [List.mem_singleton.mp hp]
      exact isRegular_uniform (by rw [hmop]; exact OperatorKind.noConfusion) c hlt
  · next hmop hchildren =>
      split at hp
      · rw [List.mem_singleton.mp hp, hmop]
        rw [hchildren] at hlt
        exact ⟨hlt, id⟩
      · exact absurd hp List.not_mem_nil
  · exact absurd hp List.not_mem_nil

/-- The standard rules name groups that exist, and propose no converters. -/
theorem isRegular_of_mem_standard {rule : Rule ν} (h : rule ∈ Rule.standard) :
    rule.IsRegular catalog := by
  simp only [Rule.standard, transformations, implementations, List.map_cons, List.map_nil,
    List.mem_append, List.mem_cons, List.not_mem_nil, or_false] at h
  rcases h with (rfl | rfl | rfl | rfl | rfl) | (rfl | rfl | rfl | rfl | rfl | rfl | rfl) |
    (rfl | rfl | rfl | rfl | rfl | rfl)
  · exact isRegular_commuteJoin
  · exact isRegular_filterIntoJoin
  · exact isRegular_mergeFilters
  · exact isRegular_mergeProjections
  · exact isRegular_dropProjection
  all_goals first
    | exact isRegular_pull (by decide)
    | exact isRegular_scanFederated
    | exact isRegular_generate _ _

/-- Rules are regular if they are the standard ones. -/
theorem isRegular_of_eq_standard {rules : List (Rule ν)} (h : rules = Rule.standard) :
    ∀ rule ∈ rules, rule.IsRegular catalog := by
  rw [h]
  exact fun rule hrule => isRegular_of_mem_standard hrule

end Standard

end Rule

end QueryPlanner
