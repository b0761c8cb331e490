/-
# What pricing and relaxing change

Deriving statistics changes nothing but statistics, and a member that is relaxed at most
becomes the winner of its group in its convention.

* `priceGroup_sameUpTo` : pricing a group changes the statistics of groups only;
* `run_relax`, `relax_cases` : what a relaxed member does to the memo;
* `findWinners_sameUpTo` : finding winners leaves all but winners and statistics alone;
* `returns_findWinners` : winners are found from a memo without any, by crowning members
  that improve on them, until all members are steady.
-/
import QueryPlanner.Proofs.Memo.Frame
import QueryPlanner.Proofs.Search.Derivation
import QueryPlanner.Proofs.Search.Steps

namespace QueryPlanner

open Quantity

namespace Search

variable {ν : Type} [Quantity ν]

/-! ## Statistics -/

omit [Quantity ν] in
/-- A walk along a list keeps what every step of it keeps. -/
theorem run_mapM_keeps {σ α β : Type} {P : σ → Prop} {f : α → StateM σ β}
    (hf : ∀ a s, P s → P ((f a).run s).2) (as : List α) (s : σ) (hs : P s) :
    P ((as.mapM f).run s).2 := by
  induction as generalizing s with
  | nil => exact hs
  | cons a rest ih =>
      rw [List.mapM_cons]
      exact ih _ (hf a s hs)

omit [Quantity ν] in
theorem setStatistics_sameUpTo (memo : Memo ν) (g : GroupId) (x : Statistics ν) :
    Memo.SameUpTo Group.withoutStatistics (setStatistics memo g x) memo :=
  Memo.sameUpTo_modifyGroup g fun _ => rfl

/-- Deriving statistics keeps what setting those of a group keeps. -/
theorem keeps_deriveStatistics {P : Memo ν → Prop}
    (hP : ∀ memo g x, P memo → P (setStatistics memo g x)) (catalog : Catalog ν) (fuel : Nat)
    (g : GroupId) (memo : Memo ν) (hmemo : P memo) :
    P ((deriveStatistics catalog fuel g).run memo).2 := by
  induction fuel generalizing g memo with
  | zero => exact hmemo
  | succ fuel ih =>
      unfold deriveStatistics
      by_cases hs : (memo.group g).statistics.isSome
      · show P ((if _ then _ else _ : StateM (Memo ν) Unit).run memo).2
        rw [if_pos hs]
        exact hmemo
      · show P ((if _ then _ else _ : StateM (Memo ν) Unit).run memo).2
        rw [if_neg hs]
        -- the group is marked first, so that a group which reads itself is not followed for ever
        have hset := hP memo g .unknown hmemo
        rcases hr : representative memo g with _ | m
        · exact hP _ g _ hset
        · refine hP _ g _ ?_
          exact run_mapM_keeps (P := P)
            (f := fun child => do
              deriveStatistics catalog fuel child
              pure ((← get).statisticsOf child))
            (fun child other h => ih child other h) m.children _ hset

/-- Deriving statistics changes nothing else. -/
theorem deriveStatistics_sameUpTo (catalog : Catalog ν) (fuel : Nat) (g : GroupId)
    (memo : Memo ν) :
    Memo.SameUpTo Group.withoutStatistics ((deriveStatistics catalog fuel g).run memo).2 memo :=
  keeps_deriveStatistics (P := fun other => Memo.SameUpTo Group.withoutStatistics other memo)
    (fun other g x h => (setStatistics_sameUpTo other g x).trans h) catalog fuel g memo
    (Memo.SameUpTo.refl memo)

/-- Pricing a group changes the statistics of groups only. -/
theorem priceGroup_sameUpTo (catalog : Catalog ν) (memo : Memo ν) (g : GroupId) :
    Memo.SameUpTo Group.withoutStatistics (priceGroup catalog memo g) memo :=
  deriveStatistics_sameUpTo catalog _ g memo

/-! ## Before the first pass -/

/-- The memo in which winners are looked for: the winners of some groups are forgotten,
and the groups are priced. -/
def prepare (catalog : Catalog ν) (memo : Memo ν) (groups : List GroupId) : Memo ν :=
  groups.foldl (fun memo g => priceGroup catalog (memo.modifyGroup g Group.withoutWinners) g) memo

/-- Forgetting the winners of a group and pricing it changes nothing else. -/
theorem forget_sameUpTo (catalog : Catalog ν) (memo : Memo ν) (g : GroupId) :
    Memo.SameUpTo Group.bare (priceGroup catalog (memo.modifyGroup g Group.withoutWinners) g)
      memo :=
  ((priceGroup_sameUpTo catalog _ g).coarsen Group.withoutWinners).trans
    (Memo.sameUpTo_modifyGroup g Group.bare_withoutWinners)

theorem prepare_sameUpTo (catalog : Catalog ν) (memo : Memo ν) (groups : List GroupId) :
    Memo.SameUpTo Group.bare (prepare catalog memo groups) memo := by
  induction groups generalizing memo with
  | nil => exact Memo.SameUpTo.refl memo
  | cons g rest ih => exact (ih _).trans (forget_sameUpTo catalog memo g)

/-- Pricing changes no winner. -/
theorem winners_priceGroup (catalog : Catalog ν) (memo : Memo ν) (g other : GroupId) :
    ((priceGroup catalog memo g).group other).winners = (memo.group other).winners := by
  have hg := congrArg Group.winners ((priceGroup_sameUpTo catalog memo g).group other)
  rwa [Group.winners_withoutStatistics, Group.winners_withoutStatistics] at hg

omit [Quantity ν] in
/-- Winners once forgotten stay forgotten. -/
theorem winners_forget {memo : Memo ν} {g other : GroupId}
    (hg : (memo.group g).winners = [] ∨ memo.leader other = memo.leader g) :
    ((memo.modifyGroup other Group.withoutWinners).group g).winners = [] := by
  unfold Memo.group at *
  show ((memo.groups.modify (memo.leader other) _)[memo.leader g]?.getD _).winners = []
  rw [Array.getElem?_modify]
  split
  · rcases memo.groups[memo.leader g]? with _ | x
    · rfl
    · rfl
  · next hne => exact hg.resolve_right hne

/-- The preparation leaves no winner in the groups it is about. -/
theorem winners_prepare (catalog : Catalog ν) (memo : Memo ν) (groups : List GroupId)
    {g : GroupId} (hg : (memo.group g).winners = [] ∨ g ∈ groups) :
    ((prepare catalog memo groups).group g).winners = [] := by
  induction groups generalizing memo with
  | nil => exact hg.resolve_right List.not_mem_nil
  | cons other rest ih =>
      refine ih _ ?_
      rw [winners_priceGroup]
      rcases hg with hg | hg
      · exact Or.inl (winners_forget (Or.inl hg))
      · rcases List.mem_cons.mp hg with rfl | hg
        · exact Or.inl (winners_forget (Or.inr rfl))
        · exact Or.inr hg

/-! ## Relaxing a member -/

/-- The memo with a new winner of a group in a convention. -/
def crown (memo : Memo ν) (g : GroupId) (c : Convention) (w : Winner ν) : Memo ν :=
  memo.modifyGroup g fun group => { group with winners := group.winners.insert c w }

omit [Quantity ν] in
theorem crown_sameUpTo (memo : Memo ν) (g : GroupId) (c : Convention) (w : Winner ν) :
    Memo.SameUpTo Group.withoutWinners (crown memo g c w) memo :=
  Memo.sameUpTo_modifyGroup g fun _ => rfl

omit [Quantity ν] in
/-- The new winner is found where it was crowned, and every other one where it was. -/
theorem winner_crown {memo : Memo ν} {g : GroupId} (hg : memo.leader g < memo.groups.size)
    (c : Convention) (w : Winner ν) (other : GroupId) (d : Convention) :
    (crown memo g c w).winner other d =
      if memo.leader other = memo.leader g ∧ c = d then some w else memo.winner other d := by
  unfold Memo.winner crown
  rw [Memo.group_modifyGroup hg]
  by_cases ho : memo.leader other = memo.leader g
  · rw [if_pos ho]
    dsimp only
    rw [Dictionary.get?_insert]
    by_cases hc : c = d
    · rw [if_pos hc, if_pos ⟨ho, hc⟩]
    · rw [if_neg hc, if_neg fun h => hc h.2]
  · rw [if_neg ho, if_neg fun h => ho h.1]

omit [Quantity ν] in
/-- Winners do not go when a member is crowned, and what holds of the cost of a winner does so
afterwards, if it passes to the member. -/
theorem exists_winner_crown {memo : Memo ν} {g : GroupId} (hg : memo.leader g < memo.groups.size)
    {c : Convention} {m : MemberId} {x : ν} {P : ν → Prop}
    (hP : ∀ w, memo.winner g c = some w → P w.cost → P x) {other : GroupId} {d : Convention}
    {w : Winner ν} (hw : memo.winner other d = some w) (hcost : P w.cost) :
    ∃ w', (crown memo g c ⟨m, x⟩).winner other d = some w' ∧ P w'.cost := by
  rw [winner_crown hg]
  split
  · next hsame =>
      obtain ⟨hleader, rfl⟩ := hsame
      exact ⟨⟨m, x⟩, rfl, hP w ((Memo.winner_congr hleader c).symm.trans hw) hcost⟩
  · exact ⟨w, hw, hcost⟩

/-- What improves on a winner is cheaper, or as cheap. -/
theorem lt_or_same_of_improves {m : MemberId} {x : ν} {w : Winner ν}
    (h : improves m x (some w) = true) : lt x w.cost = true ∨ same x w.cost = true :=
  (Bool.or_eq_true_iff.mp h).imp_right fun hsame => (Bool.and_eq_true_iff.mp hsame).1

/-- A member that does not improve on the winner of a group, as things stand, and whose cost is
not below that of any input. -/
def IsSteady (planner : Planner ν) (memo : Memo ν) (g : GroupId) (m : MemberId) : Prop :=
  (memo.member m).isLogical = false → ∀ x costs,
    costOf planner memo (memo.member m) = some (x, costs) →
      improves m x (memo.winner g (memo.member m).convention) = false ∧ lt x (largest costs) = false

/-- The cost that passes the check is the cost. -/
theorem checkedCost_eq_ok {planner : Planner ν} {memo : Memo ν} {m : Member} {r : Option ν}
    (h : checkedCost planner memo m = .ok r) : r = (costOf planner memo m).map Prod.fst := by
  unfold checkedCost at h
  rcases hc : costOf planner memo m with _ | ⟨x, costs⟩
  · rw [hc] at h
    exact (Except.ok.inj h).symm
  · rw [hc] at h
    dsimp only at h
    split at h
    · cases h
    · exact (Except.ok.inj h).symm

/-- The cost that passes the check is defined, and not below that of any input. -/
theorem not_lt_of_checkedCost {planner : Planner ν} {memo : Memo ν} {m : Member} {r : Option ν}
    (h : checkedCost planner memo m = .ok r) {x : ν} {costs : List ν}
    (hc : costOf planner memo m = some (x, costs)) :
    undefined x = false ∧ lt x (largest costs) = false := by
  unfold checkedCost at h
  rw [hc] at h
  dsimp only at h
  split at h
  · cases h
  · next hno => exact Bool.or_eq_false_iff.mp (Bool.eq_false_iff.mpr hno)

/-- Relaxing a member, told by what it costs: nothing changes unless it improves on the winner. -/
theorem run_relax (planner : Planner ν) (g : GroupId) (m : MemberId) (s : Search ν) :
    (relax planner g m).run.run s =
      if (s.memo.member m).isLogical then (.ok false, s)
      else match checkedCost planner s.memo (s.memo.member m) with
        | .error e => (.error e, s)
        | .ok none => (.ok false, s)
        | .ok (some x) =>
            if improves m x (s.memo.winner g (s.memo.member m).convention) then
              (.ok true, { s with memo := crown s.memo g (s.memo.member m).convention ⟨m, x⟩ })
            else (.ok false, s) := by
  unfold relax
  rw [run_bind_of_ok (show (memoNow : Step ν (Memo ν)).run.run s = (.ok s.memo, s) from rfl)]
  dsimp only
  split
  · rfl
  · rw [run_bind, run_lift]
    rcases checkedCost planner s.memo (s.memo.member m) with e | _ | x
    · rfl
    · rfl
    · dsimp only
      split
      · rfl
      · rfl

/-- A relaxed member either is steady and nothing changes, or it improves on the winner and
takes its place. -/
theorem relax_cases {planner : Planner ν} {g : GroupId} {m : MemberId} {s t : Search ν}
    {b : Bool} (h : Returns (relax planner g m) s b t) :
    (b = false ∧ t = s ∧ IsSteady planner s.memo g m) ∨
      (b = true ∧ (s.memo.member m).isLogical = false ∧
        ∃ x costs, costOf planner s.memo (s.memo.member m) = some (x, costs) ∧
          (undefined x = false ∧ lt x (largest costs) = false) ∧
          improves m x (s.memo.winner g (s.memo.member m).convention) = true ∧
          t = { s with memo := crown s.memo g (s.memo.member m).convention ⟨m, x⟩ }) := by
  unfold Returns at h
  rw [run_relax] at h
  -- three ways to change nothing: a logical member, one without a cost, one that is no better
  split at h
  · next hl =>
      cases h
      refine Or.inl ⟨rfl, rfl, fun hn => ?_⟩
      rw [hl] at hn
      cases hn
  · next hl =>
      rcases hr : checkedCost planner s.memo (s.memo.member m) with e | r
      · rw [hr] at h
        cases h
      rw [hr, checkedCost_eq_ok hr] at h
      rcases hc : costOf planner s.memo (s.memo.member m) with _ | ⟨x, costs⟩
      · rw [hc] at h
        cases h
        refine Or.inl ⟨rfl, rfl, fun _ x costs hx => ?_⟩
        rw [hc] at hx
        cases hx
      · rw [hc] at h
        dsimp only [Option.map_some] at h
        by_cases hi : improves m x (s.memo.winner g (s.memo.member m).convention) = true
        · rw [if_pos hi] at h
          cases h
          exact Or.inr ⟨rfl, Bool.eq_false_iff.mpr hl, x, costs, rfl, not_lt_of_checkedCost hr hc,
            hi, rfl⟩
        · rw [if_neg hi] at h
          cases h
          refine Or.inl ⟨rfl, rfl, fun _ y ys hy => ?_⟩
          rw [hc] at hy
          cases hy
          exact ⟨Bool.eq_false_iff.mpr hi, (not_lt_of_checkedCost hr hc).2⟩

/-! ## Whole passes -/

section Keeps

variable {P : Search ν → Prop} {planner : Planner ν}
  (hP : ∀ s g m x costs, (s.memo.member m).isLogical = false →
    costOf planner s.memo (s.memo.member m) = some (x, costs) → P s →
    P { s with memo := crown s.memo g (s.memo.member m).convention ⟨m, x⟩ })

include hP

/-- Relaxing a member keeps what crowning it, at what it costs as things stand, keeps. -/
theorem keeps_relax (g : GroupId) (m : MemberId) : Keeps P (relax planner g m) := by
  intro s hs
  rw [run_relax]
  split
  · exact hs
  · next hl =>
      rcases hr : checkedCost planner s.memo (s.memo.member m) with e | _ | x
      · exact hs
      · exact hs
      · dsimp only
        split
        · obtain ⟨⟨_, costs⟩, hc, rfl⟩ := Option.map_eq_some_iff.mp (checkedCost_eq_ok hr).symm
          exact hP s g m _ costs (Bool.eq_false_iff.mpr hl) hc hs
        · exact hs

theorem keeps_relaxGroups (groups : List GroupId) : Keeps P (relaxGroups planner groups) := by
  refine (keeps_forIn (fun g _ changed => ?_) false).bind fun _ => keeps_pure _
  refine Keeps.bind (fun _ h => h) fun memo => ?_
  refine (keeps_forIn (fun m _ changed => ?_) changed).bind fun _ => keeps_pure _
  refine (keeps_relax hP g m).bind fun b => ?_
  cases b with
  | true => exact keeps_pure _
  | false => exact keeps_pure _

theorem keeps_settle (groups : List GroupId) (fuel : Nat) :
    Keeps P (settle planner groups fuel) := by
  induction fuel with
  | zero => exact keeps_throw _
  | succ fuel ih =>
      refine (keeps_relaxGroups hP groups).bind fun b => ?_
      cases b with
      | true => exact ih
      | false => exact keeps_pure ()

/-- Finding winners keeps what forgetting, pricing and crowning keep. -/
theorem keeps_findWinners (hF : ∀ s : Search ν, ∀ g, P s →
      P { s with
        memo := priceGroup planner.catalog (s.memo.modifyGroup g Group.withoutWinners) g }) :
    Keeps P (findWinners planner) := by
  refine Keeps.bind (fun _ h => h) fun memo => ?_
  refine (keeps_modify fun s hs => ?_).bind fun _ =>
    Keeps.bind (fun _ h => h) fun _ => keeps_settle hP _ _
  show P { s with memo := prepare planner.catalog s.memo memo.liveGroups }
  induction memo.liveGroups generalizing s with
  | nil => exact hs
  | cons g rest ih => exact ih _ (hF s g hs)

end Keeps

/-- Finding winners leaves all but winners and statistics alone. -/
theorem findWinners_sameUpTo (planner : Planner ν) (s : Search ν) :
    Memo.SameUpTo Group.bare ((findWinners planner).run.run s).2.memo s.memo := by
  refine keeps_findWinners (P := fun t => Memo.SameUpTo Group.bare t.memo s.memo)
    (fun t g m x costs _ _ h => ?_) (fun t g h => ?_) s (Memo.SameUpTo.refl s.memo)
  · exact ((crown_sameUpTo t.memo g _ _).coarsen Group.withoutStatistics).trans h
  · exact (forget_sameUpTo planner.catalog t.memo g).trans h

/-- It changes nothing but the memo. -/
theorem eq_of_returns_findWinners {planner : Planner ν} {s t : Search ν} {u : Unit}
    (h : Returns (findWinners planner) s u t) : t = { s with memo := t.memo } :=
  Keeps.of_returns (P := fun t => t = { s with memo := t.memo })
    (keeps_findWinners (fun t g m x costs _ _ ht => by rw [ht]) fun t g ht => by rw [ht])
    h rfl

/-! ## What passes keep -/

/-- A property of memos that is kept whenever a member is crowned because it improves on a
winner, at a cost that is not below that of any input. -/
def IsKeptByCrowning (planner : Planner ν) (I : Memo ν → Prop) : Prop :=
  ∀ memo g m x costs, memo.leader g < memo.groups.size → m ∈ (memo.group g).members →
    (memo.member m).isLogical = false →
    costOf planner memo (memo.member m) = some (x, costs) →
    undefined x = false ∧ lt x (largest costs) = false →
    improves m x (memo.winner g (memo.member m).convention) = true →
    I memo → I (crown memo g (memo.member m).convention ⟨m, x⟩)

/-- All members of some groups are steady. -/
def AreSteady (planner : Planner ν) (memo : Memo ν) (groups : List GroupId) : Prop :=
  ∀ g ∈ groups, ∀ m ∈ (memo.group g).members, IsSteady planner memo g m

section Passes

variable {planner : Planner ν} {I : Memo ν → Prop} {first : Memo ν}

/-- A pass keeps what crowning keeps, changes nothing but winners, and finds all members
steady if it changes nothing at all. -/
theorem returns_relaxGroups (hI : IsKeptByCrowning planner I) {groups : List GroupId}
    {s t : Search ν} {b : Bool} (hgroups : ∀ g ∈ groups, s.memo.leader g < s.memo.groups.size)
    (hs : I s.memo) (h : Returns (relaxGroups planner groups) s b t) :
    (I t.memo ∧ Memo.SameUpTo Group.withoutWinners t.memo s.memo) ∧
      (b = false → t = s ∧ AreSteady planner s.memo groups) := by
  unfold relaxGroups at h
  obtain ⟨changed, u, hloop, hend⟩ := returns_bind.mp h
  obtain ⟨rfl, rfl⟩ := returns_pure.mp hend
  -- one pass is two nested loops with the same invariant; each finds its part steady
  have hpass := returns_forIn_changed
    (I := fun u => I u.memo ∧ Memo.SameUpTo Group.withoutWinners u.memo s.memo)
    (Q := fun g u => ∀ m ∈ (u.memo.group g).members, IsSteady planner u.memo g m) ?_
    ⟨hs, Memo.SameUpTo.refl _⟩ hloop
  · refine ⟨hpass.1, fun hb => ?_⟩
    obtain ⟨-, ht, hall⟩ := hpass.2 hb
    exact ⟨ht, hall⟩
  · intro g hg changed u r v hu h
    obtain ⟨memo, w, hmemo, h⟩ := returns_bind.mp h
    obtain ⟨rfl, rfl⟩ := returns_memoNow.mp hmemo
    obtain ⟨after, x, hinner, h⟩ := returns_bind.mp h
    obtain ⟨rfl, rfl⟩ := returns_pure.mp h
    refine ⟨after, rfl, ?_⟩
    refine returns_forIn_changed
      (I := fun u => I u.memo ∧ Memo.SameUpTo Group.withoutWinners u.memo s.memo)
      (Q := fun m u => IsSteady planner u.memo g m) ?_ hu hinner
    intro m hm changed y r z hy h
    obtain ⟨b, x, hrelax, hnext⟩ := returns_bind.mp h
    rcases relax_cases hrelax with ⟨rfl, rfl, hsteady⟩ | ⟨rfl, hp, cost, costs, hcost, hok, hi, rfl⟩
    · obtain ⟨rfl, rfl⟩ := returns_pure.mp hnext
      exact ⟨changed, rfl, hy, fun hc => ⟨hc, rfl, hsteady⟩⟩
    · obtain ⟨rfl, rfl⟩ := returns_pure.mp hnext
      -- crowning moves neither groups nor their members
      have hlead : y.memo.leader g < y.memo.groups.size := by
        rw [hy.2.leader, hy.2.size]
        exact hgroups g hg
      have hlisted : m ∈ (y.memo.group g).members := by
        rw [(hy.2.trans hu.2.symm).members_group g]
        exact hm
      exact ⟨true, rfl, ⟨hI _ g m cost costs hlead hlisted hp hcost hok hi hy.1,
        (crown_sameUpTo _ _ _ _).trans hy.2⟩, fun hc => absurd hc (by decide)⟩

/-- Passes until nothing changes keep what crowning keeps and leave all members steady. -/
theorem returns_settle (hI : IsKeptByCrowning planner I) {groups : List GroupId} {fuel : Nat}
    {s t : Search ν} (hgroups : ∀ g ∈ groups, s.memo.leader g < s.memo.groups.size)
    (hs : I s.memo) (h : Returns (settle planner groups fuel) s () t) :
    I t.memo ∧ AreSteady planner t.memo groups := by
  induction fuel generalizing s with
  | zero => exact (returns_throw.mp h).elim
  | succ fuel ih =>
      unfold settle at h
      obtain ⟨b, u, hpass, h⟩ := returns_bind.mp h
      obtain ⟨⟨hu, hsame⟩, hsteady⟩ := returns_relaxGroups hI hgroups hs hpass
      cases b with
      | true =>
          refine ih (fun g hg => ?_) hu h
          rw [hsame.leader, hsame.size]
          exact hgroups g hg
      | false =>
          obtain ⟨-, rfl⟩ := returns_pure.mp h
          obtain ⟨rfl, hall⟩ := hsteady rfl
          exact ⟨hu, hall⟩

/-- Before the first pass there is no winner at all. -/
theorem winner_prepare {memo : Memo ν} (catalog : Catalog ν) (hled : memo.Led) (g : GroupId)
    (c : Convention) : (prepare catalog memo memo.liveGroups).winner g c = none := by
  have hsame := prepare_sameUpTo catalog memo memo.liveGroups
  have hledp := hsame.symm.led hled
  rw [Memo.winner_congr (hledp.leader_leader g).symm]
  rcases Nat.lt_or_ge g memo.groups.size with hlt | hge
  · have hlive : memo.leader g ∈ memo.liveGroups := hled.leader_mem_liveGroups hlt
    unfold Memo.winner
    rw [hsame.leader, winners_prepare catalog memo _ (Or.inr hlive)]
    rfl
  · refine Memo.winner_of_le ?_ c
    rw [hledp.leader_leader]
    exact hledp.le_leader (by rw [hsame.size]; exact hge)

/-- Winners are found from a memo without any, by crowning alone, until all members of live
groups are steady. -/
theorem returns_findWinners {s t : Search ν} (hled : s.memo.Led)
    (h : Returns (findWinners planner) s () t) (hI : IsKeptByCrowning planner I)
    (hempty : ∀ memo, Memo.SameUpTo Group.withoutWinners memo t.memo →
      (∀ g c, memo.winner g c = none) → I memo) :
    I t.memo ∧ AreSteady planner t.memo t.memo.liveGroups := by
  unfold findWinners at h
  obtain ⟨memo, u, hmemo, h⟩ := returns_bind.mp h
  obtain ⟨rfl, rfl⟩ := returns_memoNow.mp hmemo
  obtain ⟨_, v, hv, h⟩ := returns_bind.mp h
  have hprepared : v.memo = prepare planner.catalog u.memo u.memo.liveGroups := by
    rw [returns_modifyMemo.mp hv]
    rfl
  obtain ⟨memo, w, hmemo, h⟩ := returns_bind.mp h
  obtain ⟨rfl, rfl⟩ := returns_memoNow.mp hmemo
  -- `u` is before the preparation, `w` after it, `t` after all passes
  have hsame : Memo.SameUpTo Group.withoutWinners t.memo w.memo :=
    (keeps_settle (P := fun v => Memo.SameUpTo Group.withoutWinners v.memo w.memo)
      (fun v g m x costs _ _ hv => (crown_sameUpTo v.memo g _ _).trans hv) _ _).of_returns h
      (Memo.SameUpTo.refl w.memo)
  have hsameu : Memo.SameUpTo Group.bare w.memo u.memo := by
    rw [hprepared]
    exact prepare_sameUpTo planner.catalog u.memo u.memo.liveGroups
  have hledw : w.memo.Led := hsameu.symm.led hled
  have hnone : ∀ g c, w.memo.winner g c = none := by
    rw [hprepared]
    exact winner_prepare planner.catalog hled
  rw [hsame.liveGroups, hsameu.liveGroups]
  refine returns_settle hI (fun g hg => ?_) (hempty w.memo hsame.symm hnone) h
  rw [← hsameu.liveGroups] at hg
  rw [hledw.leader_of_mem_liveGroups hg]
  exact hledw.parents_eq_some_iff_lt.mp ⟨g, hledw.mem_liveGroups.mp hg⟩

end Passes

end Search

end QueryPlanner
