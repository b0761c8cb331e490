/-
# Rules keep row types

What a standard rule proposes for a member derives the row type of the group of the member, from
the inputs that it names. Row types of groups never change, so that it does whenever it is inserted,
and a member that is there already is one of a group of the same row type. No step of a search is
therefore refused by its memo.

* `Source.rowType`, `Proposal.rowType` : the row type that is derived for a proposal;
* `Settled.exists_addTo`, `Settled.exists_addLogical` : what has the right row type is added;
* `exists_insert_of_rowType` : proposals of the right row type are inserted;
* `keepsRowTypes_of_mem_standard` : those of the standard rules are, one case for each;
* `not_fails_fireAll`, `not_fails_convertAll` : passes do not fail;
* `not_isRefusal_of_fails_optimize` : searches fail for other reasons only.
-/
import QueryPlanner.Proofs.Memo.Shapes
import QueryPlanner.Proofs.Search.Availability
import QueryPlanner.Proofs.Search.Failures
import QueryPlanner.Proofs.Search.Fitting

namespace QueryPlanner

open Memo

variable {ν : Type}

/-! ## Row types of proposals -/

mutual

/-- The row type of a proposed input. -/
def Source.rowType (memo : Memo ν) : Source → Except ArityMismatch RowType
  | .group g => .ok (memo.group g).rowType
  | .fresh op children => do op.deriveRowType (← rowTypesOf memo children)

/-- The row types of proposed inputs. -/
def Source.rowTypesOf (memo : Memo ν) : List Source → Except ArityMismatch (List RowType)
  | [] => .ok []
  | s :: rest => do
      let t ← s.rowType memo
      return t :: (← rowTypesOf memo rest)

end

/-- The row type of what is proposed. -/
def Proposal.rowType (memo : Memo ν) : Proposal → Except ArityMismatch RowType
  | .substitution op children => op.deriveRowType (memo.rowTypes children)
  | .compound op children => do op.deriveRowType (← Source.rowTypesOf memo children)
  | .physical op _ inputs => op.deriveRowType (memo.rowTypes (inputs.map Prod.fst))

section Growth

variable {before after : Memo ν}

mutual

theorem Source.rowType_of_growsTo (h : before.GrowsTo after) : ∀ s : Source,
    (∀ g ∈ s.groups, g < before.groups.size) → s.rowType after = s.rowType before
  | .group g, hs => by
      unfold Source.rowType
      rw [h.rowType g (hs g List.mem_cons_self)]
  | .fresh op children, hs => by
      unfold Source.rowType
      rw [Source.rowTypesOf_of_growsTo h children hs]

theorem Source.rowTypesOf_of_growsTo (h : before.GrowsTo after) : ∀ ss : List Source,
    (∀ g ∈ Source.groupsOfList ss, g < before.groups.size) →
      Source.rowTypesOf after ss = Source.rowTypesOf before ss
  | [], _ => by
      unfold Source.rowTypesOf
      rfl
  | s :: rest, hss => by
      obtain ⟨hs, hrest⟩ := List.forall_mem_append.mp hss
      unfold Source.rowTypesOf
      rw [Source.rowType_of_growsTo h s hs, Source.rowTypesOf_of_growsTo h rest hrest]

end

/-- The row type of what is proposed never changes. -/
theorem Proposal.rowType_of_growsTo (h : before.GrowsTo after) {p : Proposal}
    (hp : p.IsRegular before.groups.size) : p.rowType after = p.rowType before := by
  cases p with
  | substitution op children => exact congrArg op.deriveRowType (h.rowTypes hp.groups_lt)
  | compound op children =>
      exact congrArg (· >>= op.deriveRowType)
        (Source.rowTypesOf_of_growsTo h children hp.groups_lt)
  | physical op c inputs => exact congrArg op.deriveRowType (h.rowTypes hp.groups_lt)

end Growth

/-! ## Adding members -/

namespace Memo

variable {memo after : Memo ν} {g : GroupId} {op : Operator} {c : Convention}
  {children : List GroupId} {inputs : List Convention} {t : RowType}

/-- The row type of an operator over the leaders of its inputs is that over these. -/
theorem Led.deriveRowType_map_leader (h : memo.Led) (hlength : inputs.length = children.length)
    (ht : op.deriveRowType (memo.rowTypes children) = .ok t) :
    memo.deriveRowType op (children.map memo.leader) inputs = .ok t := by
  unfold Memo.deriveRowType
  rw [if_neg (not_not_intro (hlength.trans (List.length_map ..).symm))]
  change (op.deriveRowType (memo.rowTypes (children.map memo.leader))).mapError _ = _
  rw [h.rowTypes_map_leader, ht]
  rfl

/-- A member of the row type of a group is added to it. If another group has it already, that one is
of the same row type, and the merge goes through. -/
theorem Settled.exists_addTo (h : memo.Settled) (hg : g < memo.groups.size)
    (hlength : inputs.length = children.length)
    (ht : op.deriveRowType (memo.rowTypes children) = .ok (memo.group g).rowType)
    (origin : String) :
    ∃ m after, Returns (Memo.addTo g op c children inputs origin) memo m after := by
  have hlead : (memo.group (memo.leader g)).rowType = (memo.group g).rowType :=
    rowType_congr (h.led.leader_leader g)
  unfold Returns
  rw [run_addTo]
  rcases hindex : memo.index.get? (.of op c (children.map memo.leader) inputs) with _ | m
  · rw [h.led.deriveRowType_map_leader hlength ht]
    dsimp only
    rw [if_neg (not_not_intro hlead.symm)]
    exact ⟨_, _, rfl⟩
  · obtain ⟨hm, hhas⟩ := h.has_of_index hindex
    dsimp only
    split
    · have howner : (memo.group (memo.member m).group).rowType = (memo.group g).rowType :=
        Except.ok.inj ((h.deriveRowType_of_has hhas).symm.trans ht)
      obtain ⟨after, hrun, -⟩ := h.exists_merge ((h.member m hm).1.group_lt h.led)
        (h.led.leader_lt hg) (howner.trans hlead.symm) origin
      rw [hrun]
      exact ⟨m, after, rfl⟩
    · exact ⟨m, memo, rfl⟩

/-- An operator that a row type is derived for is added in a group of this row type. -/
theorem Settled.exists_addLogical (h : memo.Settled)
    (hlt : ∀ child ∈ children, child < memo.groups.size)
    (ht : op.deriveRowType (memo.rowTypes children) = .ok t) :
    ∃ g after, Returns (Memo.addLogical op children) memo g after ∧
      (after.group g).rowType = t := by
  have hreturns : ∃ g after, Returns (Memo.addLogical op children) memo g after := by
    have hadd : (Memo.add op .logical children (children.map fun _ => .logical)).run.run memo = _ :=
      run_add op .logical children (children.map fun _ => .logical) memo
    rw [h.led.deriveRowType_map_leader (List.length_map ..) ht] at hadd
    split at hadd
    · exact ⟨_, _, Returns.bind hadd (returns_pure.mpr ⟨rfl, rfl⟩)⟩
    · exact ⟨_, _, Returns.bind hadd (returns_pure.mpr ⟨rfl, rfl⟩)⟩
  obtain ⟨g, after, hrun⟩ := hreturns
  obtain ⟨hadds, hhas, -⟩ := h.returns_addLogical hlt hrun
  have hderived := hadds.settled.deriveRowType_of_has hhas
  rw [hadds.toGrowsTo.rowTypes hlt, ht] at hderived
  exact ⟨g, after, hrun, (Except.ok.inj hderived).symm⟩

end Memo

/-! ## Inserting proposals -/

namespace Search

mutual

/-- A proposed input that a row type is derived for becomes a group of this row type. -/
theorem exists_materialize : ∀ (s : Source) {memo : Memo ν} {t : RowType}, memo.Settled →
    (∀ x ∈ s.groups, x < memo.groups.size) → s.rowType memo = .ok t →
      ∃ g after, Returns (materialize s) memo g after ∧ (after.group g).rowType = t
  | .group x, memo, t, h, _, ht => by
      unfold Source.rowType at ht
      refine ⟨memo.leader x, memo, rfl, ?_⟩
      rw [rowType_congr (h.led.leader_leader x)]
      exact Except.ok.inj ht
  | .fresh op children, memo, t, h, hs, ht => by
      unfold Source.rowType at ht
      obtain ⟨ts, hts, ht⟩ := bind_eq_ok.mp ht
      obtain ⟨gs, mid, hlist, hgs⟩ := exists_materializeList children h hs hts
      obtain ⟨hmid, -, hlt⟩ := returns_materializeList children h hs hlist
      obtain ⟨g, after, hadd, hg⟩ := hmid.settled.exists_addLogical hlt (hgs ▸ ht)
      unfold materialize
      exact ⟨g, after, hlist.bind hadd, hg⟩

theorem exists_materializeList : ∀ (ss : List Source) {memo : Memo ν} {ts : List RowType},
    memo.Settled → (∀ x ∈ Source.groupsOfList ss, x < memo.groups.size) →
      Source.rowTypesOf memo ss = .ok ts →
        ∃ gs after, Returns (materializeList ss) memo gs after ∧ after.rowTypes gs = ts
  | [], memo, ts, _, _, hts => by
      unfold Source.rowTypesOf at hts
      exact ⟨[], memo, rfl, Except.ok.inj hts⟩
  | s :: rest, memo, ts, h, hss, hts => by
      obtain ⟨hs, hrest⟩ := List.forall_mem_append.mp hss
      unfold Source.rowTypesOf at hts
      obtain ⟨t, ht, hts⟩ := bind_eq_ok.mp hts
      obtain ⟨ts', hts', hpure⟩ := bind_eq_ok.mp hts
      obtain ⟨g, mid, hfirst, hg⟩ := exists_materialize s h hs ht
      obtain ⟨hmid, -, hlt⟩ := returns_materialize s h hs hfirst
      rw [← Source.rowTypesOf_of_growsTo hmid.toGrowsTo rest hrest] at hts'
      have hrest' := fun x hx => Nat.lt_of_lt_of_le (hrest x hx) hmid.groups
      obtain ⟨gs, last, hlist, hgs⟩ := exists_materializeList rest hmid.settled hrest' hts'
      obtain ⟨hlast, -, -⟩ := returns_materializeList rest hmid.settled hrest' hlist
      refine ⟨g :: gs, last, ?_, ?_⟩
      · unfold materializeList
        exact hfirst.bind (hlist.bind (returns_pure.mpr ⟨rfl, rfl⟩))
      · rw [← Except.ok.inj hpure, ← hg, ← hlast.toGrowsTo.rowType g hlt, ← hgs]
        rfl

end

/-- What is proposed of the row type of a group is inserted into it. -/
theorem exists_insert_of_rowType {memo : Memo ν} {g : GroupId} (h : memo.Settled)
    (hg : g < memo.groups.size) {p : Proposal} (hp : p.IsRegular memo.groups.size)
    (ht : p.rowType memo = .ok (memo.group g).rowType) (rule : String) :
    ∃ after, Returns (insert g rule p) memo () after := by
  obtain ⟨hlt, hp⟩ := hp
  cases p with
  | substitution op children =>
      obtain ⟨m, after, hadd⟩ := h.exists_addTo (c := .logical) hg
        (List.length_map fun _ => .logical) ht rule
      exact ⟨after, hadd.bind (returns_pure.mpr ⟨rfl, rfl⟩)⟩
  | compound op children =>
      obtain ⟨ts, hts, ht⟩ := bind_eq_ok.mp ht
      obtain ⟨gs, mid, hlist, hgs⟩ := exists_materializeList children h hlt hts
      obtain ⟨hmid, -, -⟩ := returns_materializeList children h hlt hlist
      rw [← hgs, ← hmid.toGrowsTo.rowType g hg] at ht
      obtain ⟨m, after, hadd⟩ := hmid.settled.exists_addTo (c := .logical)
        (Nat.lt_of_lt_of_le hg hmid.groups) (List.length_map fun _ => .logical) ht rule
      exact ⟨after, hlist.bind (hadd.bind (returns_pure.mpr ⟨rfl, rfl⟩))⟩
  | physical op c inputs =>
      unfold insert
      dsimp only
      split
      · exact ⟨memo, rfl⟩
      · obtain ⟨hasked, -⟩ := addsTo_requireAll h inputs hlt
        rw [← Proposal.rowType_of_growsTo hasked.toGrowsTo ⟨hlt, hp⟩,
          ← hasked.toGrowsTo.rowType g hg] at ht
        have hlength : (inputs.map Prod.snd).length = (inputs.map Prod.fst).length := by simp
        obtain ⟨m, after, hadd⟩ := hasked.settled.exists_addTo (c := c)
          (Nat.lt_of_lt_of_le hg hasked.groups) hlength ht rule
        exact ⟨after, (returns_modify (u := ()).mpr rfl).bind
          (hadd.bind (returns_pure.mpr ⟨rfl, rfl⟩))⟩

end Search

/-! ## Standard rules -/

namespace Operator

variable {ts : List RowType} {t t' u : RowType} {type : JoinType} {c c' p p' : Expr}
  {exprs exprs' : List Expr}

/-- The condition of a join has no part in its row type. -/
theorem deriveRowType_join : (join type c).deriveRowType ts = (join type c').deriveRowType ts := by
  rcases ts with _ | ⟨_, _ | ⟨_, _ | _⟩⟩ <;> rfl

/-- Nor has the predicate of a filter. -/
theorem deriveRowType_filter : (filter p).deriveRowType ts = (filter p').deriveRowType ts := by
  rcases ts with _ | ⟨_, _ | _⟩ <;> rfl

/-- A projection is of its own row type. -/
theorem eq_of_deriveRowType_project (h : (project exprs t).deriveRowType ts = .ok t') : t' = t := by
  rcases ts with _ | ⟨_, _ | _⟩
  · cases h
  · exact (Except.ok.inj h).symm
  · cases h

/-- What a projection is possible over, another one is. -/
theorem deriveRowType_project (h : (project exprs t).deriveRowType ts = .ok t') :
    (project exprs' u).deriveRowType ts = .ok u := by
  rcases ts with _ | ⟨_, _ | _⟩
  · cases h
  · rfl
  · cases h

end Operator

/-- A trivial projection is of the row type of its input. -/
theorem Rule.rowType_of_isTrivial {memo : Memo ν} {exprs : List Expr} {t : RowType} {g : GroupId}
    (h : isTrivial memo exprs t g = true) : t = (memo.group g).rowType := by
  unfold isTrivial at h
  rw [Bool.and_eq_true, Bool.and_eq_true, decide_eq_true_iff, decide_eq_true_iff] at h
  exact h.1.2

namespace Memo

variable {memo : Memo ν} {m : Member} {p : Proposal}

/-- A filter is of the row type of its input. -/
theorem Fits.rowType_of_filter (h : memo.Fits m) {predicate : Expr} (hop : m.op = .filter predicate)
    {child : GroupId} (hchild : child ∈ m.children) :
    (memo.group child).rowType = (memo.group m.group).rowType := by
  have hlength := h.length_children
  have ht := h.rowType
  rw [hop] at hlength ht
  obtain ⟨g, hg⟩ := List.length_eq_one_iff.mp hlength
  rw [hg] at hchild ht
  rw [List.mem_singleton.mp hchild]
  exact Except.ok.inj ht

/-- A projection is of its own row type. -/
theorem Fits.rowType_of_project (h : memo.Fits m) {exprs : List Expr} {t : RowType}
    (hop : m.op = .project exprs t) : (memo.group m.group).rowType = t := by
  have ht := h.rowType
  rw [hop] at ht
  exact Operator.eq_of_deriveRowType_project ht

/-- What the standard rules propose for a member is of the row type of its group. -/
theorem Settled.rowType_of_suggests (h : memo.Settled) (hfits : memo.Fits m)
    (hp : Rule.Suggests memo m p) : p.rowType memo = .ok (memo.group m.group).rowType := by
  cases hp with
  | commute => rfl
  | push hop hchild hbelow hcondition =>
      have ht := h.deriveRowType_of_mem_logicalMembers hbelow
      rw [hcondition, hfits.rowType_of_filter hop hchild] at ht
      exact Operator.deriveRowType_join.trans ht
  | merge hop hchild hbelow hinner =>
      have ht := h.deriveRowType_of_mem_logicalMembers hbelow
      rw [hinner, hfits.rowType_of_filter hop hchild] at ht
      exact Operator.deriveRowType_filter.trans ht
  | compose hop hchild hbelow hinner hmerged =>
      have ht := h.deriveRowType_of_mem_logicalMembers hbelow
      rw [hinner] at ht
      rw [hfits.rowType_of_project hop]
      exact Operator.deriveRowType_project ht
  | drop hop hchild htrivial hbelow =>
      rw [hfits.rowType_of_project hop, Rule.rowType_of_isTrivial htrivial]
      exact h.deriveRowType_of_mem_logicalMembers hbelow
  | dropBoth hop hchild hbelow hinner hmerged hinput htrivial hlower =>
      rw [hfits.rowType_of_project hop, Rule.rowType_of_isTrivial htrivial]
      exact h.deriveRowType_of_mem_logicalMembers hlower
  | implement hc hinputs hneeded hcode =>
      show Operator.deriveRowType _ (memo.rowTypes _) = _
      rw [hinputs]
      exact hfits.rowType

end Memo

/-- A rule all of whose proposals for the members of a memo are of the row types of their groups. -/
def Rule.KeepsRowTypes (catalog : Catalog ν) (rule : Rule ν) : Prop :=
  ∀ memo : Memo ν, memo.Settled → ∀ m < memo.members.size,
    rule.pattern.isMetBy memo (memo.member m) = true →
      ∀ p ∈ rule.propose catalog memo (memo.member m),
        p.rowType memo = .ok (memo.group (memo.member m).group).rowType

/-- The standard rules keep row types. -/
theorem Rule.keepsRowTypes_of_mem_standard {rule : Rule ν} (h : rule ∈ Rule.standard)
    (catalog : Catalog ν) : rule.KeepsRowTypes catalog := by
  intro memo hmemo m hm hmet p hp
  have hfits := (hmemo.member m hm).1
  exact hmemo.rowType_of_suggests hfits
    (Rule.suggests_of_mem_standard h hmet hfits.length_children hp)

/-! ## Passes -/

namespace Search

variable {α β : Type} {planner : Planner ν} {s t : Search ν} {e : OptimizationError ν}

/-- A step of a search that does not fail, and does nothing but move. -/
structure Proceeds (planner : Planner ν) (s : Search ν) (x : Step ν α) : Prop where
  not_fails : ∀ e, ¬ Fails x s e
  passes : ∀ a t, Returns x s a t → Passes planner s t

theorem proceeds_pure (a : α) : Proceeds planner s (pure a) where
  not_fails _ := not_fails_pure
  passes b t h := by
    obtain ⟨-, rfl⟩ := returns_pure.mp h
    exact .refl

theorem Proceeds.bind {x : Step ν α} {f : α → Step ν β} (hx : Proceeds planner s x)
    (hf : ∀ a t, Returns x s a t → Proceeds planner t (f a)) : Proceeds planner s (x >>= f) where
  not_fails e h := by
    rcases fails_bind.mp h with hfails | ⟨a, t, hrun, hfails⟩
    · exact hx.not_fails e hfails
    · exact (hf a t hrun).not_fails e hfails
  passes b u h := by
    obtain ⟨a, t, hrun, hmore⟩ := returns_bind.mp h
    exact (hx.passes a t hrun).trans ((hf a t hrun).passes b u hmore)

/-- A look at the memo is no obstacle. -/
theorem proceeds_memoNow_bind {f : Memo ν → Step ν α} (hf : Proceeds planner s (f s.memo)) :
    Proceeds planner s (memoNow >>= f) := by
  refine Proceeds.bind ⟨fun _ => not_fails_memoNow, fun memo t h => ?_⟩ fun memo t h => ?_
  · obtain ⟨-, rfl⟩ := returns_memoNow.mp h
    exact .refl
  · obtain ⟨rfl, rfl⟩ := returns_memoNow.mp h
    exact hf

section Rules

variable (hrules : ∀ rule ∈ planner.registry.rules, rule.IsRegular planner.catalog)

include hrules

/-- A walk along a list proceeds if all of its steps do, from wherever the steps before them led. -/
theorem proceeds_allM {f : α → Step ν Bool} {as : List α} (hs : IsRunning planner s)
    (hf : ∀ a ∈ as, ∀ x, IsRunning planner x → s.memo.GrowsTo x.memo → Proceeds planner x (f a)) :
    Proceeds planner s (as.allM f) where
  not_fails e h := by
    obtain ⟨a, ha, t, ht, hfails⟩ := exists_of_fails_allM (I := Passes planner s)
      (fun a ha x b y hx hrun => by
        obtain ⟨hrunning, hgrows⟩ := hs.passes hrules hx
        exact hx.trans ((hf a ha x hrunning hgrows).passes b y hrun)) .refl h
    obtain ⟨hrunning, hgrows⟩ := hs.passes hrules ht
    exact (hf a ha t hrunning hgrows).not_fails e hfails
  passes b t h := passes_allM hrules hs
    (fun a ha x c y hx hgrows hrun => (hf a ha x hx hgrows).passes c y hrun) h

variable (hkeeps : ∀ rule ∈ planner.registry.rules, rule.KeepsRowTypes planner.catalog)

include hkeeps

/-- Firing a rule that keeps row types does not fail: each proposal is inserted into what the
proposals before it left, where it is of the same row type as at first. -/
theorem proceeds_fire (hs : IsRunning planner s) {rule : Rule ν}
    (hrule : rule ∈ planner.registry.rules) {m : MemberId} (hm : m < s.memo.members.size) :
    Proceeds planner s (fire planner rule m) where
  not_fails e h := by
    have hsettled := hs.settled
    unfold fire at h
    rcases fails_bind.mp h with hfails | ⟨_, _, hmemo, h⟩
    · exact not_fails_memoNow hfails
    obtain ⟨hread, hstate⟩ := returns_memoNow.mp hmemo
    rw [hread, hstate] at h
    dsimp only at h
    split at h
    · exact not_fails_pure h
    split at h
    · exact not_fails_pure h
    next hmet =>
    rw [Bool.not_eq_true', Bool.not_eq_false] at hmet
    have hregular := hrules rule hrule _ hsettled m hm hmet
    have htypes := hkeeps rule hrule _ hsettled m hm hmet
    have hgroup := (hsettled.member m hm).1.group_lt hsettled.led
    rcases fails_bind.mp h with hfails | ⟨goesOn, t, hspend, h⟩
    · exact not_fails_spend hfails
    have hmemo : t.memo = s.memo := by
      rcases returns_spend hspend with ⟨-, -, rfl⟩ | ⟨-, -, rfl⟩ <;> rfl
    split at h
    · exact not_fails_pure h
    rcases fails_bind.mp h with hfails | ⟨_, u, hmark, h⟩
    · exact not_fails_modify hfails
    rw [returns_modifyMemo] at hmark
    subst hmark
    rcases fails_bind.mp h with hfails | ⟨_, _, _, h⟩
    · obtain ⟨p, hp, v, hv, hinsert⟩ := exists_of_fails_forIn
        (I := fun v => s.memo.GrowsTo v.memo)
        (fun p hp v u w hv hrun => by
          obtain ⟨memo, hinsert, rfl⟩ := returns_edit.mp hrun
          obtain ⟨hadds, -⟩ := returns_insert hv.settled (Nat.lt_of_lt_of_le hgroup hv.groups)
            ((hregular p hp).mono hv.groups) hinsert
          exact hv.trans hadds.toGrowsTo)
        (by
          show s.memo.GrowsTo (t.memo.markApplied m rule.hash)
          rw [hmemo]
          exact hsettled.growsTo_markApplied m rule.hash) hfails
      have ht := htypes p hp
      rw [← Proposal.rowType_of_growsTo hv (hregular p hp), ← hv.rowType _ hgroup] at ht
      obtain ⟨after, hrun⟩ := exists_insert_of_rowType hv.settled
        (Nat.lt_of_lt_of_le hgroup hv.groups) ((hregular p hp).mono hv.groups) ht rule.name
      exact hrun.not_fails (fails_edit.mp hinsert)
    · exact not_fails_pure h
  passes b t h := .single (.fire hrule hm h)

theorem proceeds_fireGroup (hs : IsRunning planner s) (g : GroupId) :
    Proceeds planner s (fireGroup planner g) := by
  refine proceeds_memoNow_bind (proceeds_allM hrules hs fun m hm x hx hgrows => ?_)
  have hlt := hgrows.lt (hs.settled.lt_of_mem_group hm)
  refine proceeds_allM hrules hx fun rule hrule y hy hgrows' => ?_
  exact proceeds_fire hrules hkeeps hy hrule (hgrows'.lt hlt)

/-- Rule passes do not fail. -/
theorem proceeds_fireAll (hs : IsRunning planner s) : Proceeds planner s (fireAll planner) := by
  refine proceeds_memoNow_bind (Proceeds.bind ?_ fun _ _ _ =>
    proceeds_memoNow_bind (proceeds_pure _))
  exact proceeds_allM hrules hs fun g _ x hx _ => proceeds_fireGroup hrules hkeeps hx g

end Rules

/-- The converter of a hop is of the row type of its group. -/
theorem not_fails_insertHop {bounded : Bool} {g : GroupId} (hop : Convention × Convention)
    (hs : s.memo.Settled) (hg : g < s.memo.groups.size) :
    ¬ Fails (insertHop planner bounded g hop) s e := by
  have hadd : ∀ u : Search ν, u.memo = s.memo → ¬ Fails (do
      let _ ← edit (Memo.addTo g (.converter hop.1) hop.2 [g] [hop.1] converterOrigin)
      return true) u e := by
    intro u hmemo h
    rcases fails_bind.mp h with hedit | ⟨_, _, -, hpure⟩
    · have hruns : ∃ m after, Returns (Memo.addTo g (.converter hop.1) hop.2 [g] [hop.1]
          converterOrigin) s.memo m after := hs.exists_addTo hg rfl rfl converterOrigin
      obtain ⟨m, after, hrun⟩ := hruns
      rw [fails_edit, hmemo] at hedit
      exact hrun.not_fails hedit
    · exact not_fails_pure hpure
  intro h
  unfold insertHop at h
  cases bounded with
  | false => exact hadd s rfl h
  | true =>
      rcases fails_bind.mp h with hspend | ⟨goesOn, t, hspend, hrest⟩
      · exact not_fails_spend hspend
      rcases returns_spend hspend with ⟨rfl, -, rfl⟩ | ⟨rfl, -, rfl⟩
      · exact not_fails_pure hrest
      · exact hadd { s with iterations := s.iterations + 1 } rfl hrest

theorem not_fails_markAttempted {g : GroupId} {source target : Convention} :
    ¬ Fails (markAttempted g source target) s e := not_fails_modify

/-- Nor does inserting the chain between two conventions fail. -/
theorem proceeds_convert {bounded : Bool} {g : GroupId} {source target : Convention}
    (hs : IsConverting planner.registry.conversions s) (hg : g < s.memo.groups.size) :
    Proceeds planner s (convert planner bounded g source target) where
  not_fails e h := by
    unfold convert at h
    rcases fails_bind.mp h with hget | ⟨_, _, hget, hrest⟩
    · exact not_fails_get hget
    obtain ⟨hread, hstate⟩ := returns_get.mp hget
    rw [hread, hstate] at hrest
    split at hrest
    · exact not_fails_pure hrest
    split at hrest
    · rcases fails_bind.mp hrest with hmark | ⟨_, _, -, hpure⟩
      · exact not_fails_markAttempted hmark
      · exact not_fails_pure hpure
    next path hpath =>
    rcases fails_bind.mp hrest with hwalk | ⟨goesOn, t, -, hend⟩
    · obtain ⟨hop, hhop, u, hu, hinsert⟩ := exists_of_fails_allM
        (I := ConvertedFrom planner.registry.conversions s False)
        (fun hop hhop x b y hx hrun => by
          obtain ⟨hy, -⟩ := returns_insertHop (Conversions.mem_of_mem_hops_path hpath hhop)
            hx.converting (hx.converts.size_eq ▸ hg) hrun
          exact hx.trans hy fun hcomplete => hcomplete.elim) hs.refl hwalk
      exact not_fails_insertHop hop hu.converting.settled (hu.converts.size_eq ▸ hg) hinsert
    · split at hend
      · exact not_fails_pure hend
      · rcases fails_bind.mp hend with hmark | ⟨_, _, -, hpure⟩
        · exact not_fails_markAttempted hmark
        · exact not_fails_pure hpure
  passes b t h := .single (.convert hg h)

section Conversions

variable (hrules : ∀ rule ∈ planner.registry.rules, rule.IsRegular planner.catalog)

include hrules

theorem proceeds_convertGroup {bounded : Bool} {g : GroupId} (hs : IsRunning planner s)
    (hg : g < s.memo.groups.size) : Proceeds planner s (convertGroup planner bounded g) := by
  have hlead := hs.settled.led.leader_lt hg
  refine proceeds_memoNow_bind (proceeds_allM hrules hs fun target _ x hx hgrows => ?_)
  refine proceeds_allM hrules hx fun source _ y hy hgrows' => ?_
  exact proceeds_convert hy.converting
    (Nat.lt_of_lt_of_le hlead (Nat.le_trans hgrows.groups hgrows'.groups))

/-- Conversion passes do not fail. -/
theorem proceeds_convertAll {bounded : Bool} (hs : IsRunning planner s) :
    Proceeds planner s (convertAll planner bounded) := by
  refine proceeds_memoNow_bind (Proceeds.bind ?_ fun _ _ _ =>
    proceeds_memoNow_bind (proceeds_pure _))
  refine proceeds_allM hrules hs fun g hg x hx hgrows => proceeds_convertGroup hrules hx ?_
  exact Nat.lt_of_lt_of_le (List.mem_range.mp (List.mem_filter.mp hg).1) hgrows.groups

end Conversions

end Search

/-! ## Searches -/

/-- That costs do not add up is no refusal. -/
theorem OptimizationError.IsOfCosts.not_isRefusal {e : OptimizationError ν} (h : e.IsOfCosts) :
    ¬ IsRefusal e := by
  cases e with
  | nonMonotonicCost => exact id
  | unsettledCosts => exact id
  | _ => cases h

namespace Search

variable [Quantity ν] {planner : Planner ν} {s : Search ν} {e : OptimizationError ν}
  (hrules : ∀ rule ∈ planner.registry.rules, rule.IsRegular planner.catalog)
  (hkeeps : ∀ rule ∈ planner.registry.rules, rule.KeepsRowTypes planner.catalog)

include hrules hkeeps

/-- The loop of passes fails only when costs do not add up. -/
theorem isOfCosts_of_fails_expand {root : GroupId} {goal : Goal ν} {fuel : Nat}
    (hs : IsRunning planner s) (h : Fails (expand planner root goal fuel) s e) : e.IsOfCosts := by
  induction fuel generalizing s with
  | zero => exact absurd h not_fails_pure
  | succ fuel ih =>
      unfold expand at h
      rcases fails_bind.mp h with hget | ⟨_, _, hget, h⟩
      · exact absurd hget not_fails_get
      obtain ⟨hread, hstate⟩ := returns_get.mp hget
      rw [hread, hstate] at h
      split at h
      · exact absurd h not_fails_pure
      rcases fails_bind.mp h with hmeet | ⟨met, t, hmeet, h⟩
      · exact (raises_meetsCeiling planner root goal).of_fails hmeet
      obtain ⟨ht, -⟩ := hs.passes hrules (returns_meetsCeiling hmeet).1
      split at h
      · exact absurd h not_fails_pure
      have hfire := proceeds_fireAll hrules hkeeps ht
      rcases fails_bind.mp h with hfails | ⟨fired, u, hrun, h⟩
      · exact absurd hfails (hfire.not_fails e)
      obtain ⟨hu, -⟩ := ht.passes hrules (hfire.passes fired u hrun)
      have hconvert : Proceeds planner u (convertAll planner true) := proceeds_convertAll hrules hu
      rcases fails_bind.mp h with hfails | ⟨converted, v, hrun, h⟩
      · exact absurd hfails (hconvert.not_fails e)
      obtain ⟨hv, -⟩ := hu.passes hrules (hconvert.passes converted v hrun)
      split at h
      · exact ih hv h
      · exact absurd h not_fails_pure

omit hkeeps in
/-- So does settling the goal. -/
theorem isOfCosts_of_fails_settleGoal {root : GroupId} {goal : Goal ν} (hs : IsRunning planner s)
    (h : Fails (settleGoal planner root goal) s e) : e.IsOfCosts := by
  unfold settleGoal at h
  rcases fails_bind.mp h with hfind | ⟨_, t, hfind, h⟩
  · exact (raises_findWinners planner).of_fails hfind
  obtain ⟨ht, -⟩ := hs.passes hrules (passes_findWinners hfind).1
  rcases fails_bind.mp h with hmemo | ⟨_, _, hmemo, h⟩
  · exact absurd hmemo not_fails_memoNow
  obtain ⟨hread, hstate⟩ := returns_memoNow.mp hmemo
  rw [hread, hstate] at h
  split at h
  · exact absurd h not_fails_pure
  rcases fails_bind.mp h with hconvert | ⟨_, u, -, h⟩
  · exact absurd hconvert ((proceeds_convertAll hrules ht).not_fails e)
  rcases fails_bind.mp h with hfind | ⟨_, v, -, h⟩
  · exact (raises_findWinners planner).of_fails hfind
  rcases fails_bind.mp h with hmemo | ⟨_, _, -, h⟩
  · exact absurd hmemo not_fails_memoNow
  · exact absurd h not_fails_pure

/-- Searches fail when costs do not add up, when there is no plan or none was found in time, and
when a plan would contain itself, but not because the memo refuses what a rule or a conversion
makes. -/
theorem not_isRefusal_of_fails_optimize {root : GroupId} {goal : Goal ν} (hs : IsRunning planner s)
    (h : Fails (optimize planner root goal) s e) : ¬ IsRefusal e := by
  unfold optimize at h
  rcases fails_bind.mp h with hrequire | ⟨_, t, hrequire, h⟩
  · exact absurd hrequire not_fails_modify
  rw [returns_modifyMemo] at hrequire
  subst hrequire
  obtain ⟨ht, -⟩ := hs.move hrules (.require root goal.convention)
  rcases fails_bind.mp h with hget | ⟨_, _, hget, h⟩
  · exact absurd hget not_fails_get
  obtain ⟨hread, hstate⟩ := returns_get.mp hget
  rw [hread, hstate] at h
  rcases fails_bind.mp h with hexpand | ⟨exhausted, u, hexpand, h⟩
  · exact (isOfCosts_of_fails_expand hrules hkeeps ht hexpand).not_isRefusal
  obtain ⟨hu, -⟩ := ht.passes hrules (returns_expand hrules ht hexpand).1
  rcases fails_bind.mp h with hsettle | ⟨settled, v, hsettle, h⟩
  · exact (isOfCosts_of_fails_settleGoal hrules hu hsettle).not_isRefusal
  cases settled with
  | none =>
      dsimp only at h
      split at h
      · rcases fails_bind.mp h with hget | ⟨_, _, -, hthrow⟩
        · exact absurd hget not_fails_get
        · rw [← fails_throw.mp hthrow]
          exact id
      · rcases fails_bind.mp h with hmemo | ⟨_, _, -, hthrow⟩
        · exact absurd hmemo not_fails_memoNow
        · rw [← fails_throw.mp hthrow]
          exact id
  | some w =>
      rcases fails_bind.mp h with hmemo | ⟨_, _, hmemo, h⟩
      · exact absurd hmemo not_fails_memoNow
      obtain ⟨hread, hstate⟩ := returns_memoNow.mp hmemo
      rw [hread, hstate] at h
      rcases fails_bind.mp h with hextract | ⟨_, _, -, hpure⟩
      · obtain ⟨q, rfl⟩ := exists_cycle_of_settleGoal hrules hu hsettle (fails_lift.mp hextract)
        exact id
      · exact absurd hpure not_fails_pure

end Search

namespace Search

variable [Quantity ν] {planner : Planner ν} {memo : Memo ν}

/-- The standard rules keep row types. For a memo of logical members, any root and goal, and any
catalog, costs and budget, a search with the standard registry never fails because the memo refuses
something. In every state that it can reach, whatever a rule proposes for a member is for the right
number of inputs and of exactly the row type of the group of the member, and it is inserted into any
memo that this one grows to, also when that merges groups. And groups that are merged were of the
same row type. -/
theorem keepsRowTypes_of_standard (hregistry : Registry.standard = .ok planner.registry)
    (hmemo : LogicallyBuilt memo) :
    (∀ root goal e, Fails (optimize planner root goal) { memo := memo } e → ¬ IsRefusal e) ∧
    ∀ s, Passes planner { memo := memo } s →
      (∀ rule ∈ planner.registry.rules, ∀ m < s.memo.members.size,
        rule.pattern.isMetBy s.memo (s.memo.member m) = true →
        ∀ p ∈ rule.propose planner.catalog s.memo (s.memo.member m),
          p.rowType s.memo = .ok (s.memo.group (s.memo.member m).group).rowType ∧
          ∀ later, s.memo.GrowsTo later →
            ∃ after, Returns (insert (s.memo.member m).group rule.name p) later () after) ∧
      ∀ t, Passes planner s t → ∀ x < s.memo.groups.size, ∀ y < s.memo.groups.size,
        t.memo.leader x = t.memo.leader y →
          (s.memo.group x).rowType = (s.memo.group y).rowType := by
  have hstandard := Registry.rules_of_standard hregistry
  have hrules : ∀ rule ∈ planner.registry.rules, rule.IsRegular planner.catalog :=
    Rule.isRegular_of_eq_standard hstandard
  have hkeeps : ∀ rule ∈ planner.registry.rules, rule.KeepsRowTypes planner.catalog := by
    rw [hstandard]
    exact fun rule hrule => Rule.keepsRowTypes_of_mem_standard hrule _
  have hstart := hmemo.isRunning planner
  refine ⟨fun root goal e h => not_isRefusal_of_fails_optimize hrules hkeeps hstart h,
    fun s hs => ⟨fun rule hrule m hm hmet p hp => ?_, fun t ht x hx y hy hxy => ?_⟩⟩
  · obtain ⟨hrunning, -⟩ := hstart.passes hrules hs
    have htype := hkeeps rule hrule _ hrunning.settled m hm hmet p hp
    have hregular := hrules rule hrule _ hrunning.settled m hm hmet p hp
    have hgroup := (hrunning.settled.member m hm).1.group_lt hrunning.settled.led
    refine ⟨htype, fun later hlater => ?_⟩
    refine exists_insert_of_rowType hlater.settled (Nat.lt_of_lt_of_le hgroup hlater.groups)
      (hregular.mono hlater.groups) ?_ rule.name
    rw [Proposal.rowType_of_growsTo hlater hregular, hlater.rowType _ hgroup]
    exact htype
  · obtain ⟨hrunning, -⟩ := hstart.passes hrules hs
    obtain ⟨-, hgrows⟩ := hrunning.passes hrules ht
    rw [← hgrows.rowType x hx, ← hgrows.rowType y hy]
    exact rowType_congr hxy

/-- The ones of a foreign table that is projected to its only column. -/
def projectedOnes : Memo Float :=
  let t : RowType := ⟨[⟨"a", .int64, true⟩]⟩
  let isOne : Expr := .binary .eq (.col "a" 0) (.literal (.int 1))
  let scanned := ((Memo.addLogical (.scan ⟨"s", "t"⟩ t) []).run.run (.empty : Memo Float)).2
  let projected := ((Memo.addLogical (.project [.col "a" 0] t) [0]).run.run scanned).2
  ((Memo.addLogical (.filter isOne) [1]).run.run projected).2

theorem logicallyBuilt_projectedOnes : LogicallyBuilt projectedOnes := by
  refine ((LogicallyBuilt.empty.addLogical _ ?_).addLogical _ ?_).addLogical _ ?_
  all_goals decide +kernel

/-- What the search for them in generated code ends with. -/
def searchedOnes : Search Float :=
  ((optimize standardPlanner 2 ⟨.compiled, none⟩).run.run { memo := projectedOnes }).2

/-- There the projection is found to be the table, which makes one group of two. Of three members
there are seventeen in the end, and none was refused. -/
theorem keepsRowTypes_of_standard_projectedOnes :
    (projectedOnes.memberCount, projectedOnes.merges) = (3, 0) ∧
    (searchedOnes.memo.memberCount, searchedOnes.memo.merges) = (17, 1) ∧
    (∀ root goal e, Fails (optimize standardPlanner root goal) { memo := projectedOnes } e →
      ¬ IsRefusal e) ∧
    ∀ s, Passes standardPlanner { memo := projectedOnes } s → ∀ t, Passes standardPlanner s t →
      ∀ x < s.memo.groups.size, ∀ y < s.memo.groups.size,
        t.memo.leader x = t.memo.leader y →
          (s.memo.group x).rowType = (s.memo.group y).rowType := by
  have hregistry : Registry.standard = .ok standardPlanner.registry := Registry.standard_eq
  obtain ⟨haccepted, hreached⟩ := keepsRowTypes_of_standard hregistry logicallyBuilt_projectedOnes
  refine ⟨by decide +kernel, by decide +kernel, haccepted, ?_⟩
  intro s hs
  exact (hreached s hs).2

end Search

end QueryPlanner
