/-
# The history of a search

All that a search does is to find winners, to fire rules and to insert chains of converters. What
each of these moves preserves, a whole search preserves; and of every rule that counts as applied to
a member there is a time when it was fired for it.

* `IsProper` : what is known of every member at any time;
* `Move`, `Passes` : what a search does, move by move;
* `IsRunning.passes` : what a search preserves;
* `fired_of_passes` : rules that count as applied were fired;
* `returns_fireGroup`, `returns_fireAll` : what a rule pass is done with.
-/
import QueryPlanner.Proofs.Search.Converters
import QueryPlanner.Proofs.Search.Insertion
import QueryPlanner.Proofs.Search.Integrity

namespace QueryPlanner

open Memo

variable {ν : Type}

/-! ## Members -/

/-- What a search knows of every member: converters read their own groups and bridge two
conventions, and what another physical operator needs of its inputs is required of them. -/
structure IsProper (registry : Registry ν) (memo : Memo ν) (m : Member) : Prop where
  own : memo.IsOwn m
  bridges : registry.Bridges m.op m.convention m.inputs
  asks : m.isLogical = false → (∀ source, m.op ≠ .converter source) →
    ∀ slot ∈ m.slots, slot.2 ∈ (memo.group slot.1).required

variable {registry : Registry ν} {memo : Memo ν} {m : Member}

theorem isStable_isProper (registry : Registry ν) : IsStable (IsProper registry) := by
  intro before after i hbefore h hi hproper
  constructor
  · exact isStable_isOwn before after i hbefore h hi hproper.own
  · rw [h.op_eq hi, h.convention_eq hi, h.inputs_eq hi]
    exact hproper.bridges
  · intro hphysical hop slot hslot
    rw [h.isLogical_eq hi] at hphysical
    rw [h.op_eq hi] at hop
    unfold Member.slots at hslot
    rw [h.children_eq hi, h.inputs_eq hi, List.zip_map_left] at hslot
    obtain ⟨old, hold, rfl⟩ := List.mem_map.mp hslot
    have hasked := h.required old.1 old.2 (hproper.asks hphysical hop old hold)
    rwa [← required_congr (h.settled.led.leader_leader old.1)] at hasked

/-- Logical members over logical inputs are proper. -/
theorem isProper_of_isEntry {g : GroupId} {op : Operator} {gs : List GroupId}
    (h : memo.IsEntry g op .logical gs (gs.map fun _ => .logical) m) : IsProper registry memo m := by
  constructor
  · intro source _ hinputs hne
    have hmem : source ∈ m.inputs := hinputs ▸ List.mem_singleton_self source
    rw [h.inputs] at hmem
    obtain ⟨_, -, hlogical⟩ := List.mem_map.mp hmem
    exact absurd (hlogical.symm.trans h.convention.symm) hne
  · intro source _ hphysical
    rw [h.convention] at hphysical
    cases hphysical
  · intro hphysical
    unfold Member.isLogical at hphysical
    rw [h.convention] at hphysical
    cases hphysical

/-- So are the members that come of regular proposals. -/
theorem Proposal.Admits.isProper (hled : memo.Led) {p : Proposal} {n : Nat} (hp : p.IsRegular n)
    (h : p.Admits memo m) : IsProper registry memo m := by
  cases p with
  | substitution op children =>
      obtain ⟨g, hentry⟩ := h
      exact isProper_of_isEntry hentry
  | compound op children =>
      obtain ⟨part, -, g, gs, -, hentry⟩ := h
      exact isProper_of_isEntry hentry
  | physical op c inputs =>
      obtain ⟨-, ⟨g, hentry⟩, hrequired⟩ := h
      have hop : ∀ source, m.op ≠ .converter source := by
        intro source heq
        have hconverter := hp.not_isConverter
        rw [← hentry.op, heq] at hconverter
        exact hconverter trivial
      constructor
      · intro source heq
        exact absurd heq (hop source)
      · intro source heq
        exact absurd heq (hop source)
      · intro _ _ slot hslot
        unfold Member.slots at hslot
        rw [hentry.children, hentry.inputs, List.map_map, List.zip_map'] at hslot
        obtain ⟨asked, hasked, rfl⟩ := List.mem_map.mp hslot
        have hmem := hrequired asked hasked
        rwa [← required_congr (hled.leader_leader asked.1)] at hmem

/-- So are converters that are inserted for registered conversions. -/
theorem Memo.IsConversion.isProper (h : IsConversion registry.conversions memo m) :
    IsProper registry memo m := by
  have hown := h.isOwn
  obtain ⟨g, hop, hhop, hne, hentry⟩ := h
  constructor
  · exact hown
  · intro source heq _
    rw [hentry.op] at heq
    cases heq
    rw [hentry.inputs, hentry.convention]
    exact ⟨rfl, hne, Registry.isSome_convertlet? hhop⟩
  · intro _ hop'
    exact absurd hentry.op (hop' hop.1)

namespace Search

/-! ## Moves -/

/-- What a search does: it requires a convention of a group, takes notes on winners and statistics,
applies a rule to a member, or inserts the chain between two conventions into a group. -/
inductive Move (planner : Planner ν) : Search ν → Search ν → Prop
  | require {s : Search ν} (g : GroupId) (c : Convention) :
      Move planner s { s with memo := s.memo.require g c }
  | note {s : Search ν} {memo : Memo ν} (h : SameUpTo Group.bare memo s.memo) :
      Move planner s { s with memo := memo }
  | fire {s t : Search ν} {rule : Rule ν} {m : MemberId} {b : Bool}
      (hrule : rule ∈ planner.registry.rules) (hm : m < s.memo.members.size)
      (h : Returns (fire planner rule m) s b t) : Move planner s t
  | convert {s t : Search ν} {bounded : Bool} {g : GroupId} {source target : Convention} {b : Bool}
      (hg : g < s.memo.groups.size) (h : Returns (convert planner bounded g source target) s b t) :
      Move planner s t

/-- One state of a search comes after another. -/
abbrev Passes (planner : Planner ν) : Search ν → Search ν → Prop := Relation.ReflTransGen (Move planner)

/-- What holds of a search at any time. -/
structure IsRunning (planner : Planner ν) (s : Search ν) : Prop where
  settled : s.memo.Settled
  proper : s.memo.Every (IsProper planner.registry)
  tried : ∀ x ∈ s.attempted,
    IsChained planner.registry.conversions s.memo x.1 x.2.1 x.2.2

variable {planner : Planner ν} {s t u : Search ν}

theorem IsRunning.converting (h : IsRunning planner s) :
    IsConverting planner.registry.conversions s :=
  ⟨h.settled, fun m hm => (h.proper m hm).own, h.tried⟩

/-- Notes are none on row types, members or requirements. -/
theorem growsTo_of_note (h : s.memo.Settled) {memo : Memo ν}
    (hsame : SameUpTo Group.bare memo s.memo) : s.memo.GrowsTo memo := by
  refine h.growsTo_of_sameUpTo hsame (fun _ => ⟨rfl, rfl⟩) fun g c hc => ?_
  have hrequired : (memo.group g).bare.required = (s.memo.group g).bare.required := by
    rw [hsame.group]
  change c ∈ (memo.group g).bare.required
  rw [hrequired]
  exact hc

section Moves

variable (hrules : ∀ rule ∈ planner.registry.rules, rule.IsRegular planner.catalog)

include hrules

/-- What firing a rule adds is proper. -/
theorem isProper_of_fires {rule : Rule ν} (hrule : rule ∈ planner.registry.rules) {m : MemberId}
    {before after : Memo ν} (hbefore : before.Settled) (hm : m < before.members.size)
    (h : Fires planner rule m before after) {i : MemberId} (hle : before.members.size ≤ i)
    (hi : i < after.members.size) : IsProper planner.registry after (after.member i) := by
  obtain ⟨p, hp, hadmits⟩ := h.added i hle hi
  exact hadmits.isProper h.grows.settled.led (hrules rule hrule before hbefore m hm h.met p hp)

/-- A move keeps what holds of a search, and makes its memo grow. -/
theorem IsRunning.move (h : IsRunning planner s) (hmove : Move planner s t) :
    IsRunning planner t ∧ s.memo.GrowsTo t.memo := by
  have hstable := isStable_isProper planner.registry
  cases hmove with
  | require g c =>
      have hgrows := h.settled.growsTo_require g c
      refine ⟨⟨hgrows.settled, ?_, fun x hx => (h.tried x hx).of_growsTo h.settled hgrows⟩, hgrows⟩
      exact h.proper.of_growsTo hstable h.settled hgrows fun i hle hi =>
        absurd hi (Nat.not_lt_of_le hle)
  | note hsame =>
      have hgrows := growsTo_of_note h.settled hsame
      refine ⟨⟨hgrows.settled, ?_, fun x hx => (h.tried x hx).of_growsTo h.settled hgrows⟩, hgrows⟩
      refine h.proper.of_growsTo hstable h.settled hgrows fun i hle hi => ?_
      exact absurd (hsame.members ▸ hi) (Nat.not_lt_of_le hle)
  | fire hrule hm hfire =>
      rcases returns_fire (hrules _ hrule) h.settled hm hfire with
        ⟨-, rfl, -⟩ | ⟨-, -, rfl⟩ | ⟨-, -, ht, hfires⟩
      · exact ⟨h, h.settled.growsTo_self⟩
      · exact ⟨⟨h.settled, h.proper, h.tried⟩, h.settled.growsTo_self⟩
      · have hgrows := hfires.grows
        refine ⟨⟨hgrows.settled, ?_, ?_⟩, hgrows⟩
        · exact h.proper.of_growsTo hstable h.settled hgrows fun i hle hi =>
            isProper_of_fires hrules hrule h.settled hm hfires hle hi
        · rw [ht]
          exact fun x hx => (h.tried x hx).of_growsTo h.settled hgrows
  | convert hg hconvert =>
      obtain ⟨hafter, -⟩ := returns_convert h.converting hg hconvert
      have hgrows := hafter.converts
      refine ⟨⟨hgrows.settled, ?_, hafter.converting.tried⟩, hgrows.toGrowsTo⟩
      exact h.proper.of_growsTo hstable h.settled hgrows.toGrowsTo fun i hle hi =>
        (hgrows.added i hle hi).isProper

/-- So do many moves. -/
theorem IsRunning.passes (h : IsRunning planner s) (hpasses : Passes planner s t) :
    IsRunning planner t ∧ s.memo.GrowsTo t.memo := by
  induction hpasses with
  | refl => exact ⟨h, h.settled.growsTo_self⟩
  | tail _ hmove ih =>
      obtain ⟨hu, hgrows⟩ := ih
      obtain ⟨ht, hmore⟩ := hu.move hrules hmove
      exact ⟨ht, hgrows.trans hmore⟩

end Moves

/-- What rules and converters bring about from what is known of every member is known of every member
later. -/
theorem every_of_passes (hrules : ∀ rule ∈ planner.registry.rules, rule.IsRegular planner.catalog)
    {Q : Memo ν → Member → Prop} (hQ : IsStable Q)
    (hconverter : ∀ memo m, memo.IsConversion planner.registry.conversions m → Q memo m)
    (hfire : ∀ rule ∈ planner.registry.rules, ∀ (before after : Memo ν) (m : MemberId),
      before.Settled → before.Every Q → m < before.members.size →
      Fires planner rule m before after →
      ∀ p ∈ rule.propose planner.catalog before (before.member m), ∀ i,
        p.Admits after (after.member i) → Q after (after.member i))
    (hs : IsRunning planner s) (hpasses : Passes planner s t) (h : s.memo.Every Q) :
    t.memo.Every Q := by
  induction hpasses with
  | refl => exact h
  | @tail u t hpasses hmove ih =>
      obtain ⟨hu, -⟩ := hs.passes hrules hpasses
      obtain ⟨-, hgrows⟩ := hu.move hrules hmove
      refine ih.of_growsTo hQ hu.settled hgrows fun i hle hi => ?_
      cases hmove with
      | require => exact absurd hi (Nat.not_lt_of_le hle)
      | note hsame => exact absurd (hsame.members ▸ hi) (Nat.not_lt_of_le hle)
      | fire hrule hm hrun =>
          rcases returns_fire (hrules _ hrule) hu.settled hm hrun with
            ⟨-, rfl, -⟩ | ⟨-, -, rfl⟩ | ⟨-, -, -, hfires⟩
          · exact absurd hi (Nat.not_lt_of_le hle)
          · exact absurd hi (Nat.not_lt_of_le hle)
          · obtain ⟨p, hp, hadmits⟩ := hfires.added i hle hi
            exact hfire _ hrule _ _ _ hu.settled ih hm hfires p hp i hadmits
      | convert hg hconvert =>
          obtain ⟨hafter, -⟩ := returns_convert hu.converting hg hconvert
          exact hconverter _ _ (hafter.converts.added i hle hi)

/-! ## Rules that were applied -/

/-- Between two states of a search, a rule was fired for a member. -/
def WasFired (planner : Planner ν) (rule : Rule ν) (m : MemberId) (s t : Search ν) : Prop :=
  ∃ u v, Passes planner s u ∧ m < u.memo.members.size ∧ Returns (fire planner rule m) u true v ∧
    Fires planner rule m u.memo v.memo ∧ Passes planner v t

theorem WasFired.move {rule : Rule ν} {m : MemberId} (h : WasFired planner rule m s u)
    (hmove : Move planner u t) : WasFired planner rule m s t := by
  obtain ⟨v, w, hbefore, hm, hrun, hfires, hafter⟩ := h
  exact ⟨v, w, hbefore, hm, hrun, hfires, hafter.tail hmove⟩

section Applied

variable (hrules : ∀ rule ∈ planner.registry.rules, rule.IsRegular planner.catalog)

include hrules

/-- What a rule proposed when it was fired is in the memo. -/
theorem WasFired.exists_isIn (hs : IsRunning planner s) {rule : Rule ν}
    (hrule : rule ∈ planner.registry.rules) {m : MemberId} (h : WasFired planner rule m s t) :
    ∃ earlier : Memo ν, s.memo.GrowsTo earlier ∧ earlier.GrowsTo t.memo ∧
      m < earlier.members.size ∧ rule.pattern.isMetBy earlier (earlier.member m) = true ∧
      ∀ p ∈ rule.propose planner.catalog earlier (earlier.member m),
        p.IsIn t.memo (earlier.member m).group := by
  obtain ⟨u, v, hbefore, hm, hrun, hfires, hafter⟩ := h
  obtain ⟨hu, hgrows⟩ := hs.passes hrules hbefore
  obtain ⟨hrunning, -⟩ := hu.move hrules (.fire hrule hm hrun)
  obtain ⟨-, hv⟩ := hrunning.passes hrules hafter
  refine ⟨u.memo, hgrows, hfires.grows.trans hv, hm, hfires.met, fun p hp => ?_⟩
  exact Proposal.isIn_of_growsTo hv hfires.grows.settled (hfires.isIn p hp)

/-- A rule that counts as applied to a member, and did not at first, was fired for it. -/
theorem fired_of_passes (hhashes : (planner.registry.rules.map Rule.hash).Nodup)
    (hs : IsRunning planner s) (hpasses : Passes planner s t) {rule : Rule ν}
    (hrule : rule ∈ planner.registry.rules) {m : MemberId}
    (hnew : s.memo.wasApplied m rule.hash = false) (hold : t.memo.wasApplied m rule.hash = true) :
    WasFired planner rule m s t := by
  induction hpasses with
  | refl =>
      rw [hnew] at hold
      cases hold
  | @tail u t hpasses hmove ih =>
      obtain ⟨hu, -⟩ := hs.passes hrules hpasses
      by_cases hearlier : u.memo.wasApplied m rule.hash = true
      · exact (ih hearlier).move hmove
      · -- the last move must have been the one that fired the rule
        cases hmove with
        | require => exact absurd hold hearlier
        | note hsame =>
            unfold Memo.wasApplied at hold hearlier
            rw [hsame.member] at hold
            exact absurd hold hearlier
        | @fire _ other i b hother hi hfire =>
            rcases returns_fire (hrules other hother) hu.settled hi hfire with
              ⟨-, rfl, -⟩ | ⟨-, -, rfl⟩ | ⟨rfl, -, ht, hfires⟩
            · exact absurd hold hearlier
            · exact absurd hold hearlier
            · rw [hfires.marks, Bool.or_eq_true, decide_eq_true_iff] at hold
              obtain ⟨rfl, hhash⟩ := Prod.mk.inj (hold.resolve_right hearlier)
              obtain rfl := List.inj_on_of_nodup_map hhashes hrule hother hhash
              exact ⟨u, t, hpasses, hi, hfire, hfires, .refl⟩
        | convert hg hconvert =>
            obtain ⟨hafter, -⟩ := returns_convert hu.converting hg hconvert
            rw [hafter.converts.unmarked] at hold
            exact absurd hold hearlier

end Applied

/-! ## Passes -/

section Passes

variable (hrules : ∀ rule ∈ planner.registry.rules, rule.IsRegular planner.catalog)

include hrules

/-- A walk along a list does nothing but what its steps do. -/
theorem passes_allM {α : Type} {f : α → Step ν Bool} {as : List α} (hs : IsRunning planner s)
    (hf : ∀ a ∈ as, ∀ x b y, IsRunning planner x → s.memo.GrowsTo x.memo → Returns (f a) x b y →
      Passes planner x y) {b : Bool} (h : Returns (as.allM f) s b t) : Passes planner s t := by
  refine (returns_allM (I := fun u => Passes planner s u) (Q := fun _ _ => True)
    (fun a ha x c y hx hrun => ?_) .refl h).1
  obtain ⟨hrunning, hgrows⟩ := hs.passes hrules hx
  exact ⟨hx.trans (hf a ha x c y hrunning hgrows hrun), fun _ => trivial, fun _ _ => trivial⟩

/-- A rule is done with a member: it counts as applied to it, or it did not apply to it at some time
since. -/
def IsTried (rule : Rule ν) (before after : Memo ν) (m : MemberId) : Prop :=
  after.wasApplied m rule.hash = true ∨ ∃ mid : Memo ν, before.GrowsTo mid ∧ mid.GrowsTo after ∧
    rule.pattern.isMetBy mid (mid.member m) = false

omit hrules in
theorem IsTried.of_growsTo {rule : Rule ν} {before after last : Memo ν} {m : MemberId}
    (h : IsTried rule before after m) (hgrows : after.GrowsTo last) : IsTried rule before last m := by
  rcases h with happlied | ⟨mid, hmid, hafter, hmet⟩
  · exact Or.inl (hgrows.wasApplied happlied)
  · exact Or.inr ⟨mid, hmid, hafter.trans hgrows, hmet⟩

/-- A rule pass over a group that is not ended by the budget is done with all of its members. -/
theorem returns_fireGroup {before : Memo ν} (hs : IsRunning planner s)
    (hbefore : before.GrowsTo s.memo) {g : GroupId} {b : Bool}
    (h : Returns (fireGroup planner g) s b t) : Passes planner s t ∧ (b = true →
      ∀ m ∈ (s.memo.group g).members, ∀ rule ∈ planner.registry.rules,
        IsTried rule before t.memo m) := by
  unfold fireGroup at h
  obtain ⟨memo, _, hmemo, hwalk⟩ := returns_bind.mp h
  obtain ⟨hread, hstate⟩ := returns_memoNow.mp hmemo
  rw [hread, hstate] at hwalk
  -- one step is for one member and one rule
  have hstep : ∀ m ∈ (s.memo.group g).members, ∀ rule ∈ planner.registry.rules, ∀ x c y,
      Passes planner s x → Returns (fire planner rule m) x c y →
      Passes planner s y ∧ (c = true → IsTried rule before y.memo m) ∧ x.memo.GrowsTo y.memo := by
    intro m hm rule hrule x c y hx hrun
    obtain ⟨hrunning, hgrows⟩ := hs.passes hrules hx
    have hlt := hgrows.lt (hs.settled.lt_of_mem_group hm)
    have hmove : Move planner x y := .fire hrule hlt hrun
    obtain ⟨-, hmore⟩ := hrunning.move hrules hmove
    refine ⟨hx.tail hmove, fun hc => ?_, hmore⟩
    rcases returns_fire (hrules rule hrule) hrunning.settled hlt hrun with
      ⟨-, rfl, happlied | hmet⟩ | ⟨rfl, -, -⟩ | ⟨-, -, -, hfires⟩
    · exact Or.inl happlied
    · exact Or.inr ⟨y.memo, hbefore.trans hgrows, hmore, hmet⟩
    · cases hc
    · refine Or.inl ?_
      rw [hfires.marks, decide_eq_true rfl, Bool.true_or]
  have hmember : ∀ m ∈ (s.memo.group g).members, ∀ x c y, Passes planner s x →
      Returns (planner.registry.rules.allM fun rule => fire planner rule m) x c y →
      Passes planner s y ∧ (c = true → ∀ rule ∈ planner.registry.rules,
        IsTried rule before y.memo m) ∧ x.memo.GrowsTo y.memo := by
    intro m hm x c y hx hrun
    obtain ⟨hrunning, -⟩ := hs.passes hrules hx
    obtain ⟨⟨hy, hgrows⟩, hall, -⟩ := returns_allM
      (I := fun u => Passes planner s u ∧ x.memo.GrowsTo u.memo)
      (Q := fun rule u => IsTried rule before u.memo m)
      (fun rule hrule u c v hu hrun => by
        obtain ⟨hv, htried, hmore⟩ := hstep m hm rule hrule u c v hu.1 hrun
        exact ⟨⟨hv, hu.2.trans hmore⟩, htried, fun _ hother => hother.of_growsTo hmore⟩)
      ⟨hx, hrunning.settled.growsTo_self⟩ hrun
    exact ⟨hy, hall, hgrows⟩
  obtain ⟨hpasses, hall, -⟩ := returns_allM (I := fun u => Passes planner s u)
    (Q := fun m u => ∀ rule ∈ planner.registry.rules, IsTried rule before u.memo m)
    (fun m hm x c y hx hrun => by
      obtain ⟨hy, htried, hmore⟩ := hmember m hm x c y hx hrun
      exact ⟨hy, htried, fun _ hother rule hrule => (hother rule hrule).of_growsTo hmore⟩)
    .refl hwalk
  exact ⟨hpasses, hall⟩

/-- A rule pass that reports nothing new is done with all members, and there was no new member and
no merge. -/
theorem returns_fireAll (hs : IsRunning planner s) {b : Bool} (h : Returns (fireAll planner) s b t) :
    Passes planner s t ∧ (b = false → t.memo.members.size = s.memo.members.size ∧
      t.memo.merges = s.memo.merges ∧ ∀ g ∈ s.memo.liveGroups, ∀ m ∈ (s.memo.group g).members,
        ∀ rule ∈ planner.registry.rules, IsTried rule s.memo t.memo m) := by
  unfold fireAll at h
  obtain ⟨memo, _, hmemo, hrest⟩ := returns_bind.mp h
  obtain ⟨hread, hstate⟩ := returns_memoNow.mp hmemo
  rw [hread, hstate] at hrest
  obtain ⟨finished, u, hwalk, hend⟩ := returns_bind.mp hrest
  obtain ⟨after, v, hafter, hpure⟩ := returns_bind.mp hend
  obtain ⟨rfl, rfl⟩ := returns_memoNow.mp hafter
  obtain ⟨rfl, rfl⟩ := returns_pure.mp hpure
  obtain ⟨hpasses, hall, -⟩ := returns_allM (I := fun u => Passes planner s u)
    (Q := fun g u => ∀ m ∈ (s.memo.group g).members, ∀ rule ∈ planner.registry.rules,
      IsTried rule s.memo u.memo m)
    (fun g _ x c y hx hrun => by
      obtain ⟨hrunning, hgrows⟩ := hs.passes hrules hx
      obtain ⟨hy, htried⟩ := returns_fireGroup hrules hrunning hgrows hrun
      obtain ⟨-, hmore⟩ := hrunning.passes hrules hy
      refine ⟨hx.trans hy, fun hc m hm => htried hc m (hgrows.mem_group hs.settled hm), ?_⟩
      exact fun _ hother m hm rule hrule => (hother m hm rule hrule).of_growsTo hmore)
    .refl hwalk
  refine ⟨hpasses, fun hb => ?_⟩
  obtain ⟨-, hgrows⟩ := hs.passes hrules hpasses
  simp only [Bool.or_eq_false_iff, Bool.not_eq_false', decide_eq_false_iff_not] at hb
  obtain ⟨⟨hfinished, hmembers⟩, hmerges⟩ := hb
  exact ⟨Nat.le_antisymm (Nat.le_of_not_lt hmembers) hgrows.members,
    Nat.le_antisymm (Nat.le_of_not_lt hmerges) hgrows.merges, hall hfinished⟩

/-- A conversion pass inserts chains into groups, and does nothing else. -/
theorem passes_convertAll (hs : IsRunning planner s) {bounded b : Bool}
    (h : Returns (convertAll planner bounded) s b t) : Passes planner s t := by
  unfold convertAll at h
  obtain ⟨memo, _, hmemo, hrest⟩ := returns_bind.mp h
  obtain ⟨hread, hstate⟩ := returns_memoNow.mp hmemo
  rw [hread, hstate] at hrest
  obtain ⟨finished, u, hwalk, hend⟩ := returns_bind.mp hrest
  obtain ⟨after, v, hafter, hpure⟩ := returns_bind.mp hend
  obtain ⟨rfl, rfl⟩ := returns_memoNow.mp hafter
  obtain ⟨rfl, rfl⟩ := returns_pure.mp hpure
  refine passes_allM hrules hs (fun g hg x c y hx hgrows hrun => ?_) hwalk
  have hlt : g < s.memo.groups.size := List.mem_range.mp (List.mem_filter.mp hg).1
  have hlead := hx.settled.led.leader_lt (Nat.lt_of_lt_of_le hlt hgrows.groups)
  unfold convertGroup at hrun
  obtain ⟨memo, _, hmemo, hwalk⟩ := returns_bind.mp hrun
  obtain ⟨hread, hstate⟩ := returns_memoNow.mp hmemo
  rw [hread, hstate] at hwalk
  refine passes_allM hrules hx (fun target _ x' c y hx' hgrows' hrun => ?_) hwalk
  refine passes_allM hrules hx' (fun source _ x'' c y hx'' hgrows'' hrun => ?_) hrun
  have hsize := Nat.le_trans hgrows'.groups hgrows''.groups
  exact .single (.convert (Nat.lt_of_lt_of_le hlead hsize) hrun)

omit hrules in
/-- Winners are notes. -/
theorem passes_findWinners [Quantity ν] {u : Unit} (h : Returns (findWinners planner) s u t) :
    Passes planner s t ∧ SameUpTo Group.bare t.memo s.memo ∧ t = { s with memo := t.memo } := by
  have hsame := findWinners_sameUpTo planner s
  rw [show (findWinners planner).run.run s = _ from h] at hsame
  have hstate := eq_of_returns_findWinners h
  refine ⟨?_, hsame, hstate⟩
  rw [hstate]
  exact .single (.note hsame)

end Passes

end Search

end QueryPlanner
