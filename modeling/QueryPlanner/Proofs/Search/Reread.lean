/-
# Growing a memo without its notes

Rules look at members and row types, conversions at conventions: neither pass reads what is noted on
groups. So both do the same to a memo without its notes, step by step, and spend the same.

* `reread` : a search whose memo is without its notes;
* `Rule.IgnoresNotes`, `Rule.ignoresNotes_of_mem_standard` : rules that do not read notes;
* `isBlind_fireAll`, `isBlind_convertAll` : the passes do the same to it.
-/
import QueryPlanner.Proofs.Memo.Reread
import QueryPlanner.Proofs.Search.Rounds
import QueryPlanner.Registry.Standard

namespace QueryPlanner

open Memo

variable {ν : Type} {memo : Memo ν}

/-! ## Rules -/

/-- Members have the shapes that they had. -/
theorem Pattern.isMetBy_reread (p : Pattern) (m : Member) :
    p.isMetBy (memo.reread : Memo ν) m = p.isMetBy memo m := by
  refine Pattern.isMetBy_congr ⟨fun g i => ?_, ?_, ?_, ?_⟩ p rfl rfl rfl
  · rw [members_reread]
  · exact fun _ _ _ => rfl
  · exact fun _ _ _ => rfl
  · exact fun _ _ _ => rfl

namespace Rule

/-- A rule proposes the same whatever is noted on groups. -/
def IgnoresNotes (catalog : Catalog ν) (rule : Rule ν) : Prop :=
  ∀ (memo : Memo ν) (m : Member), rule.propose catalog memo.reread m = rule.propose catalog memo m

theorem logicalMembers_reread (g : GroupId) :
    logicalMembers (memo.reread : Memo ν) g = logicalMembers memo g := by
  unfold logicalMembers
  rw [membersOf_reread]

theorem isTrivial_reread (exprs : List Expr) (t : RowType) (input : GroupId) :
    isTrivial (memo.reread : Memo ν) exprs t input = isTrivial memo exprs t input := by
  unfold isTrivial
  rw [rowType_reread]

theorem alternatives_reread (g : GroupId) :
    alternatives (memo.reread : Memo ν) g = alternatives memo g := by
  unfold alternatives
  rw [logicalMembers_reread]

theorem mergeInto_reread (outer : List Expr) (t : RowType) (below : Member) :
    mergeInto (memo.reread : Memo ν) outer t below = mergeInto memo outer t below := by
  unfold mergeInto
  simp only [isTrivial_reread, alternatives_reread]

/-- The standard rules read nothing but members and row types. -/
theorem ignoresNotes_of_mem_standard {catalog : Catalog ν} {rule : Rule ν}
    (h : rule ∈ (Rule.standard : List (Rule ν))) : rule.IgnoresNotes catalog := by
  simp only [Rule.standard, transformations, implementations, List.map_cons, List.map_nil,
    List.mem_append, List.mem_cons, List.not_mem_nil, or_false] at h
  rcases h with (rfl | rfl | rfl | rfl | rfl) | (rfl | rfl | rfl | rfl | rfl | rfl | rfl) |
    (rfl | rfl | rfl | rfl | rfl | rfl)
  · intro memo m
    unfold commuteJoin
    simp only [rowType_reread]
  · intro memo m
    unfold filterIntoJoin
    simp only [logicalMembers_reread]
  · intro memo m
    unfold mergeFilters
    simp only [logicalMembers_reread]
  · intro memo m
    unfold mergeProjections
    simp only [logicalMembers_reread, funext (mergeInto_reread _ _)]
  · intro memo m
    unfold dropProjection
    simp only [isTrivial_reread, alternatives_reread]
  -- the others do not look at the memo at all
  all_goals exact fun _ _ => rfl

end Rule

/-! ## Edits -/

namespace Memo

/-- An edit does the same to a memo without its notes. -/
abbrev IsBlind {α : Type} (change : Edit ν α) (memo : Memo ν) : Prop :=
  Mirrors (reread : Memo ν → Memo ν) change change memo

end Memo

namespace Search

mutual

theorem isBlind_materialize : ∀ (source : Source) (memo : Memo ν),
    Memo.IsBlind (materialize source) memo
  | .group _, _ => mirrors_get_bind (mirrors_pure _)
  | .fresh op children, memo => by
      unfold materialize
      exact (isBlind_materializeList children memo).bind fun groups _ _ => mirrors_addLogical op groups

theorem isBlind_materializeList : ∀ (sources : List Source) (memo : Memo ν),
    Memo.IsBlind (materializeList sources) memo
  | [], _ => mirrors_pure []
  | source :: rest, memo => by
      unfold materializeList
      exact (isBlind_materialize source memo).bind fun g after _ =>
        (isBlind_materializeList rest after).bind fun gs _ _ => mirrors_pure (g :: gs)

end

theorem isBlind_addLogicalTo (g : GroupId) (op : Operator) (children : List GroupId) (rule : String)
    (memo : Memo ν) : Memo.IsBlind (addLogicalTo g op children rule) memo :=
  (mirrors_addTo g op .logical children _ rule).bind fun _ _ _ => mirrors_pure _

theorem isBlind_insert (g : GroupId) (rule : String) (p : Proposal) (memo : Memo ν) :
    Memo.IsBlind (insert g rule p) memo := by
  cases p with
  | substitution op children => exact isBlind_addLogicalTo g op children rule memo
  | compound op children =>
      exact (isBlind_materializeList children memo).bind fun groups after _ =>
        isBlind_addLogicalTo g op groups rule after
  | physical op c inputs =>
      unfold insert
      dsimp only
      split
      · exact mirrors_pure _
      · refine (mirrors_modify (foldl_require_reread inputs)).bind fun _ _ _ => ?_
        exact (mirrors_addTo g op c _ _ rule).bind fun _ _ _ => mirrors_pure _

/-! ## Steps -/

/-- A search whose memo is without its notes. -/
def reread (s : Search ν) : Search ν := { s with memo := s.memo.reread }

variable {α : Type} {s : Search ν}

/-- A step does the same to a search whose memo is without its notes. -/
abbrev IsBlind (x : Step ν α) (s : Search ν) : Prop := Mirrors reread x x s

theorem mirrors_memoNow_bind {f k : Memo ν → Step ν α}
    (h : Mirrors reread (f s.memo) (k s.memo.reread) s) :
    Mirrors reread (memoNow >>= f) (memoNow >>= k) s := ⟨h.value, h.state⟩

theorem isBlind_modifyMemo {f : Memo ν → Memo ν} (h : f s.memo.reread = (f s.memo).reread) :
    IsBlind (modifyMemo f) s :=
  mirrors_modify (congrArg (fun memo => { s with memo := memo }) h)

theorem isBlind_edit {change : Memo.Edit ν α} (h : Memo.IsBlind change s.memo) :
    IsBlind (edit change) s :=
  ⟨h.value, congrArg (fun memo => { s with memo := memo }) h.state⟩

theorem isBlind_spend (budget : Budget) : IsBlind (spend budget) s := by
  refine mirrors_get_bind ?_
  show Mirrors reread _ (if budget.iterations ≤ s.iterations then _ else _) s
  split
  · exact (mirrors_set rfl).bind fun _ _ _ => mirrors_pure _
  · exact (mirrors_set rfl).bind fun _ _ _ => mirrors_pure _

/-! ## The rule pass -/

section Rules

variable {planner : Planner ν}

theorem isBlind_fire {rule : Rule ν} (hrule : rule.IgnoresNotes planner.catalog) (m : MemberId)
    (s : Search ν) : IsBlind (fire planner rule m) s := by
  refine mirrors_memoNow_bind ?_
  dsimp only
  rw [member_reread, Pattern.isMetBy_reread, hrule,
    show (s.memo.reread : Memo ν).wasApplied = s.memo.wasApplied from rfl]
  split
  · exact mirrors_pure true
  · split
    · exact mirrors_pure true
    · refine (isBlind_spend planner.budget).bind fun goesOn t _ => ?_
      split
      · exact mirrors_pure false
      · have hmark : IsBlind (modifyMemo fun memo => memo.markApplied m rule.hash) t :=
          isBlind_modifyMemo rfl
        refine hmark.bind fun _ _ _ => ?_
        refine (mirrors_forIn (fun p _ s => ?_) _).bind fun _ _ _ => mirrors_pure true
        exact (isBlind_edit (isBlind_insert _ _ p s.memo)).bind fun _ _ _ => mirrors_pure _

variable (hrules : ∀ rule ∈ planner.registry.rules, rule.IgnoresNotes planner.catalog)

include hrules

theorem isBlind_fireGroup (g : GroupId) (s : Search ν) : IsBlind (fireGroup planner g) s := by
  refine mirrors_memoNow_bind ?_
  rw [members_reread]
  exact mirrors_allM fun m _ s => mirrors_allM fun rule hrule s => isBlind_fire (hrules rule hrule) m s

theorem isBlind_fireAll (s : Search ν) : IsBlind (fireAll planner) s := by
  refine mirrors_memoNow_bind ?_
  rw [liveGroups_reread]
  refine (mirrors_allM fun g _ s => isBlind_fireGroup hrules g s).bind fun finished t _ => ?_
  exact mirrors_memoNow_bind (mirrors_pure _)

end Rules

/-! ## The conversion pass -/

variable {planner : Planner ν}

theorem isBlind_insertHop (bounded : Bool) (g : GroupId) (hop : Convention × Convention)
    (s : Search ν) : IsBlind (insertHop planner bounded g hop) s := by
  have hadd : ∀ s : Search ν, IsBlind (do
      let _ ← edit (Memo.addTo g (.converter hop.1) hop.2 [g] [hop.1] converterOrigin)
      return true) s := fun s =>
    (isBlind_edit (mirrors_addTo g _ hop.2 [g] [hop.1] converterOrigin)).bind fun _ _ _ =>
      mirrors_pure true
  cases bounded with
  | false => exact hadd s
  | true =>
      refine (isBlind_spend planner.budget).bind fun goesOn t _ => ?_
      cases goesOn with
      | false => exact mirrors_pure false
      | true => exact hadd t

theorem isBlind_convert (bounded : Bool) (g : GroupId) (source target : Convention) (s : Search ν) :
    IsBlind (convert planner bounded g source target) s := by
  refine mirrors_get_bind ?_
  show Mirrors reread _ (if source = target || s.attempted.contains (g, source, target) then _ else _) s
  have hmark : ∀ s : Search ν, IsBlind (do markAttempted g source target; return true) s := by
    intro s
    have hmark : IsBlind (markAttempted g source target) s := mirrors_modify rfl
    exact hmark.bind fun _ _ _ => mirrors_pure true
  split
  · exact mirrors_pure true
  · split
    · exact hmark s
    · refine (mirrors_allM fun hop _ s => isBlind_insertHop bounded g hop s).bind fun goesOn t _ => ?_
      split
      · exact mirrors_pure false
      · exact hmark t

theorem isBlind_convertGroup (bounded : Bool) (g : GroupId) (s : Search ν) :
    IsBlind (convertGroup planner bounded g) s := by
  refine mirrors_memoNow_bind ?_
  have hpresent : ∀ g, presentConventions (s.memo.reread : Memo ν) g = presentConventions s.memo g := by
    intro g
    unfold presentConventions
    rw [membersOf_reread]
  have hrequired : ∀ g, ((s.memo.reread : Memo ν).group g).required = (s.memo.group g).required := by
    intro g
    rw [group_reread]
    rfl
  dsimp only
  rw [leader_reread, hpresent, hrequired]
  exact mirrors_allM fun target _ s => mirrors_allM fun source _ s =>
    isBlind_convert bounded _ source target s

theorem isBlind_convertAll (bounded : Bool) (s : Search ν) : IsBlind (convertAll planner bounded) s := by
  refine mirrors_memoNow_bind ?_
  rw [liveGroups_reread]
  refine (mirrors_allM fun g _ s => isBlind_convertGroup bounded g s).bind fun finished t _ => ?_
  exact mirrors_memoNow_bind (mirrors_pure _)

end Search

end QueryPlanner
