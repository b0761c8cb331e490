/-
# The rounds of a search

A search goes on in rounds until one of them changes nothing. Such a round saw the memo as it was
at its end all the time, so that nothing is left to do for it: no rule, and no chain of converters.

* `LogicallyBuilt.isRunning` : where a search may start;
* `isMetBy_of_still` : members have the shapes that they had, as long as nothing is new;
* `IsFixpoint` : a memo that a round does not change;
* `returns_expand` : a search that no budget ends comes to a fixpoint, or to a plan that is cheap
  enough;
* `settleGoal_cases`, `returns_optimize_iff` : what follows the last round;
* `passes_optimize` : a whole search.
-/
import QueryPlanner.Proofs.Plan.Integrity
import QueryPlanner.Proofs.Search.History

namespace QueryPlanner

open Memo

variable {ν : Type}

/-! ## Shapes -/

namespace Pattern

/-- Groups have the same members, which have the same operators and inputs. -/
structure SameMembers (before after : Memo ν) : Prop where
  group : ∀ g m, m ∈ (after.group g).members ↔ m ∈ (before.group g).members
  op : ∀ g, ∀ m ∈ (before.group g).members, (after.member m).op = (before.member m).op
  convention : ∀ g, ∀ m ∈ (before.group g).members,
    (after.member m).convention = (before.member m).convention
  children : ∀ g, ∀ m ∈ (before.group g).members,
    (after.member m).children = (before.member m).children

variable {before after : Memo ν}

mutual

/-- A shape is that of the operator, the convention and the inputs, where groups have the same
members. -/
theorem isMetBy_congr (h : SameMembers before after) : ∀ (p : Pattern) {x y : Member},
    y.op = x.op → y.convention = x.convention → y.children = x.children →
      p.isMetBy after y = p.isMetBy before x
  | any, x, y, _, _, _ => rfl
  | leaf, x, y, _, _, hchildren => by
      unfold isMetBy
      rw [hchildren]
  | operator kind convention children, x, y, hop, hconvention, hchildren => by
      unfold isMetBy
      rw [hop, hconvention, hchildren, areMetBy_congr h children x.children]

theorem areMetBy_congr (h : SameMembers before after) : ∀ (ps : List Pattern) (gs : List GroupId),
    areMetBy after ps gs = areMetBy before ps gs
  | [], [] => rfl
  | [], _ :: _ => rfl
  | p :: _, [] => by
      cases p with
      | any => rfl
      | leaf => rfl
      | operator => rfl
  | p :: ps, g :: gs => by
      have hfirst : (after.membersOf g).any (p.isMetBy after) =
          (before.membersOf g).any (p.isMetBy before) := by
        unfold membersOf
        rw [List.any_map, List.any_map, Bool.eq_iff_iff, List.any_eq_true, List.any_eq_true]
        have hsame : ∀ m ∈ (before.group g).members,
            p.isMetBy after (after.member m) = p.isMetBy before (before.member m) := by
          intro m hm
          exact isMetBy_congr h p (h.op g m hm) (h.convention g m hm) (h.children g m hm)
        constructor
        · rintro ⟨m, hm, hmet⟩
          have hold := (h.group g m).mp hm
          exact ⟨m, hold, (hsame m hold).symm.trans hmet⟩
        · rintro ⟨m, hm, hmet⟩
          exact ⟨m, (h.group g m).mpr hm, (hsame m hm).trans hmet⟩
      have hrest := areMetBy_congr h ps gs
      cases p with
      | any => exact hrest
      | leaf => exact congrArg₂ (· && ·) hfirst hrest
      | operator => exact congrArg₂ (· && ·) hfirst hrest

end

/-- Groups have the shape of anything. -/
theorem areMetBy_any (memo : Memo ν) : ∀ gs : List GroupId,
    areMetBy memo (List.replicate gs.length any) gs = true
  | [] => rfl
  | _ :: gs => areMetBy_any memo gs

/-- A logical member over as many inputs as its operator takes has the shape of its kind. -/
theorem isMetBy_logical {memo : Memo ν} {m : Member} (hlogical : m.convention = .logical)
    (hlength : m.children.length = m.op.arity) : (logical m.op.kind).isMetBy memo m = true := by
  unfold logical logicalOver isMetBy
  rw [← show m.op.arity = m.op.kind.arity from rfl, ← hlength, areMetBy_any, hlogical]
  simp

end Pattern

namespace Memo

variable {before after : Memo ν}

/-- Without new members and merges, members have the shapes that they had. -/
theorem GrowsTo.isMetBy_of_still (h : before.GrowsTo after) (hbefore : before.Settled)
    (hmembers : after.members.size = before.members.size) (hmerges : after.merges = before.merges)
    (p : Pattern) {m : MemberId} (hm : m < before.members.size) :
    p.isMetBy after (after.member m) = p.isMetBy before (before.member m) := by
  have hsame : Pattern.SameMembers before after := by
    constructor
    · intro g i
      exact h.mem_group_iff_of_still hbefore hmembers hmerges
    · intro g i hi
      exact h.op_eq (hbefore.lt_of_mem_group hi)
    · intro g i hi
      exact h.convention_eq (hbefore.lt_of_mem_group hi)
    · intro g i hi
      exact h.children_eq_of_still hbefore hmembers hmerges (hbefore.lt_of_mem_group hi)
  exact Pattern.isMetBy_congr hsame p (h.op_eq hm) (h.convention_eq hm)
    (h.children_eq_of_still hbefore hmembers hmerges hm)

end Memo

namespace Search

variable {planner : Planner ν} {s t u : Search ν} {memo before after : Memo ν}

/-! ## Starting -/

/-- All members of a memo of logical members are logical and over logical inputs, and no rule was
applied to any. -/
theorem LogicallyBuilt.entries (h : LogicallyBuilt memo) : memo.Settled ∧
    (∀ m hash, memo.wasApplied m hash = false) ∧ memo.Every fun memo m =>
      ∃ g op gs, memo.IsEntry g op .logical gs (gs.map fun _ => .logical) m := by
  induction h with
  | empty =>
      exact ⟨settled_empty, fun m hash => wasApplied_of_le (Nat.zero_le m) hash,
        fun m hm => absurd hm (Nat.not_lt_zero m)⟩
  | @addLogical memo _ op children hlt ih =>
      obtain ⟨hsettled, hunmarked, hentries⟩ := ih
      have horderly : memo.Orderly (Memo.addLogical op children) := hsettled.addLogical hlt
      rcases horderly with ⟨e, -, hrun⟩ | ⟨g, after, hrun, -⟩
      · rw [hrun]
        exact ⟨hsettled, hunmarked, hentries⟩
      · rw [hrun]
        obtain ⟨hadds, -, -⟩ := hsettled.returns_addLogical hlt hrun
        refine ⟨hadds.settled, fun m hash => (hadds.unmarked m hash).trans (hunmarked m hash), ?_⟩
        refine hentries.of_growsTo ?_ hsettled hadds.toGrowsTo fun m hle hm =>
          ⟨g, op, children, hadds.added m hle hm⟩
        rintro before after m hbefore hgrows hm ⟨g, op, gs, hentry⟩
        exact ⟨g, op, gs, isStable_isEntry g op _ gs _ before after m hbefore hgrows hm hentry⟩

/-- A search may start from such a memo. -/
theorem LogicallyBuilt.isRunning (h : LogicallyBuilt memo) (planner : Planner ν) :
    IsRunning planner { memo := memo } := by
  obtain ⟨hsettled, -, hentries⟩ := h.entries
  refine ⟨hsettled, fun m hm => ?_, fun x hx => absurd hx List.not_mem_nil⟩
  obtain ⟨g, op, gs, hentry⟩ := hentries m hm
  exact isProper_of_isEntry hentry

/-! ## Fixpoints -/

/-- A memo that a round does not change: every rule was applied to every member that has its shape,
and every group has the chains from all that it has to all that is needed of it. -/
structure IsFixpoint (planner : Planner ν) (memo : Memo ν) : Prop where
  applied : ∀ g ∈ memo.liveGroups, ∀ m ∈ (memo.group g).members, ∀ rule ∈ planner.registry.rules,
    rule.pattern.isMetBy memo (memo.member m) = true → memo.wasApplied m rule.hash = true
  connected : ∀ g ∈ memo.liveGroups, IsConnected planner.registry.conversions memo g

/-- Notes on winners and statistics do not end a fixpoint. -/
theorem IsFixpoint.of_note (h : IsFixpoint planner s.memo) (hs : s.memo.Settled)
    (hsame : SameUpTo Group.bare memo s.memo) : IsFixpoint planner memo := by
  have hgrows := growsTo_of_note hs hsame
  have hmembers : memo.members.size = s.memo.members.size := congrArg Array.size hsame.members
  have hlive := hgrows.liveGroups_eq_of_still hs.led hmembers hsame.merges
  have hmem : ∀ {g m}, m ∈ (memo.group g).members ↔ m ∈ (s.memo.group g).members :=
    hgrows.mem_group_iff_of_still hs hmembers hsame.merges
  constructor
  · intro g hg m hm rule hrule hmet
    have hlt := hs.lt_of_mem_group (hmem.mp hm)
    rw [hgrows.isMetBy_of_still hs hmembers hsame.merges rule.pattern hlt] at hmet
    exact hgrows.wasApplied (h.applied g (hlive ▸ hg) m (hmem.mp hm) rule hrule hmet)
  · intro g hg target htarget hphysical m hm hlogical
    have hrequired : (memo.group g).bare.required = (s.memo.group g).bare.required := by
      rw [hsame.group]
    have hlt := hs.lt_of_mem_group (hmem.mp hm)
    rw [hgrows.isLogical_eq hlt] at hlogical
    rw [hgrows.convention_eq hlt]
    refine (h.connected g (hlive ▸ hg) target ?_ hphysical m (hmem.mp hm) hlogical).of_growsTo hs hgrows
    change target ∈ (s.memo.group g).bare.required
    rw [← hrequired]
    exact htarget

section Rounds

variable (hrules : ∀ rule ∈ planner.registry.rules, rule.IsRegular planner.catalog)

include hrules

/-- A round that reports nothing new leaves a fixpoint. -/
theorem isFixpoint_of_round (hs : IsRunning planner s) (hfire : Returns (fireAll planner) s false u)
    (hconvert : Returns (convertAll planner true) u false t) : IsFixpoint planner t.memo := by
  obtain ⟨hpasses, hquiet⟩ := returns_fireAll hrules hs hfire
  obtain ⟨hmembers, hmerges, htried⟩ := hquiet rfl
  obtain ⟨hu, hgrows⟩ := hs.passes hrules hpasses
  obtain ⟨-, hidle, -⟩ := returns_convertAll hu.converting hconvert
  obtain ⟨hsame, hconnected⟩ := hidle rfl
  rw [hsame]
  refine ⟨fun g hg m hm rule hrule hmet => ?_, hconnected⟩
  have hlive := hgrows.liveGroups_eq_of_still hs.settled.led hmembers hmerges
  have hold := (hgrows.mem_group_iff_of_still hs.settled hmembers hmerges).mp hm
  have hlt := hs.settled.lt_of_mem_group hold
  rcases htried g (hlive ▸ hg) m hold rule hrule with happlied | ⟨mid, hmid, hafter, hunmet⟩
  · exact happlied
  · -- the memo has not changed since the time when the member was not of the shape
    have hmembers' : u.memo.members.size = mid.members.size :=
      Nat.le_antisymm (hmembers ▸ hmid.members) hafter.members
    have hmerges' : u.memo.merges = mid.merges :=
      Nat.le_antisymm (hmerges ▸ hmid.merges) hafter.merges
    rw [hafter.isMetBy_of_still hmid.settled hmembers' hmerges' rule.pattern (hmid.lt hlt),
      hunmet] at hmet
    cases hmet

variable [Quantity ν]

omit hrules in
/-- Where the ceiling is met, winners were found, and the goal has one. -/
theorem returns_meetsCeiling {root : GroupId} {goal : Goal ν} {b : Bool}
    (h : Returns (meetsCeiling planner root goal) s b t) : Passes planner s t ∧ (b = true →
      goal.ceiling.isSome ∧ Returns (findWinners planner) s () t ∧
        (t.memo.winner root goal.convention).isSome) := by
  unfold meetsCeiling at h
  split at h
  · obtain ⟨rfl, rfl⟩ := returns_pure.mp h
    exact ⟨.refl, fun hb => absurd hb (by decide)⟩
  · next ceiling hceiling =>
      obtain ⟨_, u, hfind, hrest⟩ := returns_bind.mp h
      obtain ⟨memo, v, hmemo, hanswer⟩ := returns_bind.mp hrest
      obtain ⟨rfl, rfl⟩ := returns_memoNow.mp hmemo
      split at hanswer
      · obtain ⟨rfl, rfl⟩ := returns_pure.mp hanswer
        exact ⟨(passes_findWinners hfind).1, fun hb => absurd hb (by decide)⟩
      · next w hw =>
          obtain ⟨rfl, rfl⟩ := returns_pure.mp hanswer
          refine ⟨(passes_findWinners hfind).1, fun _ => ⟨?_, hfind, ?_⟩⟩
          · rw [hceiling]
            rfl
          · rw [hw]
            rfl

/-- A search does nothing but move, and if it is not ended by the budget, then by a fixpoint, or by
winners among which one for the goal is no dearer than the ceiling. -/
theorem returns_expand {root : GroupId} {goal : Goal ν} {fuel : Nat} {b : Bool}
    (hs : IsRunning planner s) (h : Returns (expand planner root goal fuel) s b t) :
    Passes planner s t ∧ (b = false → IsFixpoint planner t.memo ∨ goal.ceiling.isSome ∧
      ∃ u, IsRunning planner u ∧ Returns (findWinners planner) u () t ∧
        (t.memo.winner root goal.convention).isSome) := by
  induction fuel generalizing s with
  | zero =>
      obtain ⟨rfl, rfl⟩ := returns_pure.mp h
      exact ⟨.refl, fun hb => absurd hb (by decide)⟩
  | succ fuel ih =>
      unfold expand at h
      obtain ⟨_, _, hget, hrest⟩ := returns_bind.mp h
      obtain ⟨hread, hstate⟩ := returns_get.mp hget
      rw [hread, hstate] at hrest
      split at hrest
      · obtain ⟨rfl, rfl⟩ := returns_pure.mp hrest
        exact ⟨.refl, fun hb => absurd hb (by decide)⟩
      · obtain ⟨met, u, hmeet, hround⟩ := returns_bind.mp hrest
        obtain ⟨hpasses, hmet⟩ := returns_meetsCeiling hmeet
        cases met with
        | true =>
            obtain ⟨rfl, rfl⟩ := returns_pure.mp hround
            obtain ⟨hceiling, hfind, hsome⟩ := hmet rfl
            exact ⟨hpasses, fun _ => Or.inr ⟨hceiling, s, hs, hfind, hsome⟩⟩
        | false =>
            obtain ⟨hu, -⟩ := hs.passes hrules hpasses
            obtain ⟨fired, v, hfire, hmore⟩ := returns_bind.mp hround
            obtain ⟨converted, w, hconvert, hend⟩ := returns_bind.mp hmore
            have hfired := (returns_fireAll hrules hu hfire).1
            obtain ⟨hv, -⟩ := hu.passes hrules hfired
            have hconverted := passes_convertAll hrules hv hconvert
            obtain ⟨hw, -⟩ := hv.passes hrules hconverted
            have hall := (hpasses.trans hfired).trans hconverted
            split at hend
            · obtain ⟨hlast, hfix⟩ := ih hw hend
              exact ⟨hall.trans hlast, hfix⟩
            · next hquiet =>
                obtain ⟨rfl, rfl⟩ := returns_pure.mp hend
                rw [Bool.not_eq_true, Bool.or_eq_false_iff] at hquiet
                obtain ⟨rfl, rfl⟩ := hquiet
                exact ⟨hall, fun _ => Or.inl (isFixpoint_of_round hrules hu hfire hconvert)⟩

/-! ## After the last round -/

omit hrules in
/-- The goal is settled by the winners that are found first, or by those that are found after a
conversion pass without a bound. -/
theorem settleGoal_cases {root : GroupId} {goal : Goal ν} {r : Option (Winner ν)}
    (h : Returns (settleGoal planner root goal) s r t) :
    t.memo.winner root goal.convention = r ∧ (Returns (findWinners planner) s () t ∧ r.isSome ∨
      ∃ u b v, Returns (findWinners planner) s () u ∧ Returns (convertAll planner false) u b v ∧
        Returns (findWinners planner) v () t) := by
  unfold settleGoal at h
  obtain ⟨_, u, hu, hmore⟩ := returns_bind.mp h
  obtain ⟨memo, v, hmemo, hanswer⟩ := returns_bind.mp hmore
  obtain ⟨rfl, rfl⟩ := returns_memoNow.mp hmemo
  rcases hw : v.memo.winner root goal.convention with _ | w
  · rw [hw] at hanswer
    obtain ⟨b, x, hconvert, hagain⟩ := returns_bind.mp hanswer
    obtain ⟨_, y, hfind, hlast⟩ := returns_bind.mp hagain
    obtain ⟨memo, z, hmemo, hanswer⟩ := returns_bind.mp hlast
    obtain ⟨rfl, rfl⟩ := returns_memoNow.mp hmemo
    obtain ⟨rfl, rfl⟩ := returns_pure.mp hanswer
    exact ⟨rfl, Or.inr ⟨v, b, x, hu, hconvert, hfind⟩⟩
  · rw [hw] at hanswer
    obtain ⟨rfl, rfl⟩ := returns_pure.mp hanswer
    exact ⟨hw, Or.inl ⟨hu, rfl⟩⟩

/-- Settling the goal does nothing but move, and does not end a fixpoint. -/
theorem returns_settleGoal_moves {root : GroupId} {goal : Goal ν} {r : Option (Winner ν)}
    (hs : IsRunning planner s) (h : Returns (settleGoal planner root goal) s r t) :
    Passes planner s t ∧ (IsFixpoint planner s.memo → IsFixpoint planner t.memo) := by
  obtain ⟨-, ⟨hfind, -⟩ | ⟨u, b, v, hfind, hconvert, hagain⟩⟩ := settleGoal_cases h
  · obtain ⟨hpasses, hsame, -⟩ := passes_findWinners hfind
    exact ⟨hpasses, fun hfix => hfix.of_note hs.settled hsame⟩
  · obtain ⟨hfound, hsame, -⟩ := passes_findWinners hfind
    obtain ⟨hu, -⟩ := hs.passes hrules hfound
    have hconverted := passes_convertAll hrules hu hconvert
    obtain ⟨hlast, hsame', -⟩ := passes_findWinners hagain
    refine ⟨(hfound.trans hconverted).trans hlast, fun hfix => ?_⟩
    have hfix' := hfix.of_note hs.settled hsame
    obtain ⟨hv, -, -⟩ := returns_convertAll hu.converting hconvert
    have hidle := hv.idle hfix'.connected
    rw [← hidle] at hfix'
    exact hfix'.of_note hv.converting.settled hsame'

/-- Settling the goal ends with winners that are found. -/
theorem exists_findWinners_of_settleGoal {root : GroupId} {goal : Goal ν} {r : Option (Winner ν)}
    (hs : IsRunning planner s) (h : Returns (settleGoal planner root goal) s r t) :
    ∃ u, IsRunning planner u ∧ Returns (findWinners planner) u () t := by
  obtain ⟨-, ⟨hfind, -⟩ | ⟨u, b, v, hfind, hconvert, hagain⟩⟩ := settleGoal_cases h
  · exact ⟨s, hs, hfind⟩
  · obtain ⟨hu, -⟩ := hs.passes hrules (passes_findWinners hfind).1
    obtain ⟨hv, -⟩ := hu.passes hrules (passes_convertAll hrules hu hconvert)
    exact ⟨v, hv, hagain⟩

omit hrules in
/-- A plan is returned after the loop has ended and a winner was found for the goal: the one that is read
off the winners. It counts as truncated if a budget ended the loop, or if it is over the ceiling. -/
theorem returns_optimize_iff {root : GroupId} {goal : Goal ν} {plan : Plan ν} :
    Returns (optimize planner root goal) s plan t ↔ ∃ exhausted u w,
      Returns (expand planner root goal (planner.budget.iterations - s.iterations + 1))
        { s with memo := s.memo.require root goal.convention } exhausted u ∧
      Returns (settleGoal planner root goal) u (some w) t ∧
      ∃ node, t.memo.extract root goal.convention = .ok node ∧
        plan = ⟨node, exhausted || goal.ceiling.any fun ceiling => Quantity.lt ceiling w.cost⟩ := by
  constructor
  · intro h
    unfold optimize at h
    obtain ⟨_, required, hrequired, hafter⟩ := returns_bind.mp h
    obtain rfl := returns_modifyMemo.mp hrequired
    obtain ⟨_, _, hget, hsearch⟩ := returns_bind.mp hafter
    obtain ⟨rfl, rfl⟩ := returns_get.mp hget
    obtain ⟨exhausted, u, hexpand, hrest⟩ := returns_bind.mp hsearch
    obtain ⟨settled, v, hsettle, hanswer⟩ := returns_bind.mp hrest
    cases settled with
    | none =>
        dsimp only at hanswer
        split at hanswer
        · obtain ⟨_, _, _, hthrow⟩ := returns_bind.mp hanswer
          exact (returns_throw.mp hthrow).elim
        · obtain ⟨_, _, _, hthrow⟩ := returns_bind.mp hanswer
          exact (returns_throw.mp hthrow).elim
    | some w =>
        obtain ⟨_, _, hmemo, hextract⟩ := returns_bind.mp hanswer
        obtain ⟨rfl, rfl⟩ := returns_memoNow.mp hmemo
        obtain ⟨node, _, hnode, hplan⟩ := returns_bind.mp hextract
        obtain ⟨hnode, rfl⟩ := returns_lift.mp hnode
        obtain ⟨rfl, rfl⟩ := returns_pure.mp hplan
        exact ⟨exhausted, u, w, hexpand, hsettle, node, hnode, rfl⟩
  · rintro ⟨exhausted, u, w, hexpand, hsettle, node, hnode, rfl⟩
    have hrequired : Returns (modifyMemo fun memo => memo.require root goal.convention) s ()
        { s with memo := s.memo.require root goal.convention } := returns_modifyMemo.mpr rfl
    refine hrequired.bind ((returns_get.mpr ⟨rfl, rfl⟩).bind (hexpand.bind ?_))
    refine hsettle.bind ((returns_memoNow.mpr ⟨rfl, rfl⟩).bind ?_)
    exact (returns_lift.mpr ⟨hnode, rfl⟩).bind (returns_pure.mpr ⟨rfl, rfl⟩)

omit hrules in
/-- A plan that does not count as truncated is returned after a loop that no budget has ended. -/
theorem optimize_parts {root : GroupId} {goal : Goal ν} {plan : Plan ν}
    (h : Returns (optimize planner root goal) s plan t) : ∃ exhausted u w,
      Returns (expand planner root goal (planner.budget.iterations - s.iterations + 1))
        { s with memo := s.memo.require root goal.convention } exhausted u ∧
      Returns (settleGoal planner root goal) u (some w) t ∧
      (plan.truncated = false → exhausted = false) := by
  obtain ⟨exhausted, u, w, hexpand, hsettle, node, -, rfl⟩ := returns_optimize_iff.mp h
  exact ⟨exhausted, u, w, hexpand, hsettle, fun htruncated => (Bool.or_eq_false_iff.mp htruncated).1⟩

/-- All that a search does until a plan is returned is to move, and it ends with winners that are
found. -/
theorem passes_optimize {root : GroupId} {goal : Goal ν} {plan : Plan ν} (hs : IsRunning planner s)
    (h : Returns (optimize planner root goal) s plan t) : Passes planner s t ∧
      ∃ u, IsRunning planner u ∧ Returns (findWinners planner) u () t := by
  obtain ⟨_, v, w, hexpand, hsettle, -⟩ := optimize_parts h
  have hrequire : Move planner s { s with memo := s.memo.require root goal.convention } :=
    .require root goal.convention
  obtain ⟨hrequired, -⟩ := hs.move hrules hrequire
  obtain ⟨hexpanded, -⟩ := returns_expand hrules hrequired hexpand
  obtain ⟨hv, -⟩ := hrequired.passes hrules hexpanded
  obtain ⟨hsettled, -⟩ := returns_settleGoal_moves hrules hv hsettle
  exact ⟨((Relation.ReflTransGen.single hrequire).trans hexpanded).trans hsettled,
    exists_findWinners_of_settleGoal hrules hv hsettle⟩

end Rounds

end Search

end QueryPlanner
