/-
# What searches keep

A search changes the memo in four ways only: it requires a convention of the root, finds
winners, fires rules of its registry, and adds converters of registered conversions to groups
that exist. What these keep, every search keeps.

* `IsKeptByEdits.fire` : firing a rule only adds members, requires conventions and marks rules;
* `IsKept` : a property of memos that the four ways of changing a memo keep;
* `IsKept.optimize` : a whole search keeps it, whether it succeeds or fails.
-/
import QueryPlanner.Proofs.Conversions
import QueryPlanner.Proofs.Memo.Leaders
import QueryPlanner.Proofs.Search.Steps
import QueryPlanner.Search.Optimize

namespace QueryPlanner

namespace Search

variable {ν : Type} {P : Memo ν → Prop}

/-! ## Insertions -/

/-- A property of memos that is kept by whatever members are added, conventions are required and
rules are marked as applied. -/
structure IsKeptByEdits (P : Memo ν → Prop) : Prop where
  add : ∀ op c children inputs, Keeps P (Memo.add op c children inputs : Memo.Edit ν _)
  addTo : ∀ g op c children inputs origin,
    Keeps P (Memo.addTo g op c children inputs origin : Memo.Edit ν _)
  require : ∀ memo g c, P memo → P (memo.require g c)
  markApplied : ∀ memo m hash, P memo → P (memo.markApplied m hash)

namespace IsKeptByEdits

mutual

theorem materialize (h : IsKeptByEdits P) (source : Source) :
    Keeps P (materialize source : Memo.Edit ν GroupId) := by
  cases source with
  | group g => exact keeps_get.bind fun memo => keeps_pure (memo.leader g)
  | fresh op children =>
      unfold Search.materialize
      exact (h.materializeList children).bind fun groups =>
        (h.add op .logical groups _).bind fun _ => keeps_pure _

theorem materializeList (h : IsKeptByEdits P) (sources : List Source) :
    Keeps P (materializeList sources : Memo.Edit ν (List GroupId)) := by
  cases sources with
  | nil => exact keeps_pure []
  | cons source rest =>
      unfold Search.materializeList
      exact (h.materialize source).bind fun g =>
        (h.materializeList rest).bind fun gs => keeps_pure (g :: gs)

end

theorem insert (h : IsKeptByEdits P) (g : GroupId) (rule : String) (proposal : Proposal) :
    Keeps P (insert g rule proposal : Memo.Edit ν Unit) := by
  cases proposal with
  | substitution op children =>
      exact (h.addTo g op .logical children _ rule).bind fun _ => keeps_pure _
  | compound op children =>
      exact (h.materializeList children).bind fun groups =>
        (h.addTo g op .logical groups _ rule).bind fun _ => keeps_pure _
  | physical op c inputs =>
      unfold Search.insert
      dsimp only
      by_cases hop : op = .converter c
      · rw [if_pos hop]
        exact keeps_pure _
      · rw [if_neg hop]
        refine (keeps_modify fun memo hmemo => ?_).bind fun _ =>
          (h.addTo g op c _ _ rule).bind fun _ => keeps_pure _
        induction inputs generalizing memo with
        | nil => exact hmemo
        | cons input rest ih => exact ih _ (h.require memo input.1 input.2 hmemo)

theorem fire (h : IsKeptByEdits P) (planner : Planner ν) (rule : Rule ν) (m : MemberId) :
    Keeps (fun s => P s.memo) (fire planner rule m) := by
  refine keeps_memoNow.bind fun memo => ?_
  split
  · exact keeps_pure true
  · split
    · exact keeps_pure true
    · refine (keeps_spend _).bind fun goesOn => ?_
      split
      · exact keeps_pure false
      · refine (keeps_modifyMemo fun memo => h.markApplied memo m rule.hash).bind fun _ => ?_
        refine (keeps_forIn (fun proposal _ _ => ?_) _).bind fun _ => keeps_pure true
        exact (keeps_edit (h.insert _ _ proposal)).bind fun _ => keeps_pure _

end IsKeptByEdits

/-- No member goes. -/
theorem isKeptByEdits_size (n : Nat) : IsKeptByEdits fun memo : Memo ν => n ≤ memo.members.size where
  add op c children inputs := Memo.keeps_count_add n op c children inputs
  addTo g op c children inputs origin := Memo.keeps_count_addTo n g op c children inputs origin
  require _ _ _ h := h
  markApplied _ _ _ h := h.trans_eq (Array.size_modify ..).symm

/-! ## What searches do -/

variable [Quantity ν] {planner : Planner ν}

/-- A property of memos with leaders that is kept by everything that a search does. -/
structure IsKept (planner : Planner ν) (P : Memo ν → Prop) : Prop where
  led : ∀ memo, P memo → memo.Led
  require : ∀ memo g c, P memo → P (memo.require g c)
  findWinners : Keeps (fun s => P s.memo) (findWinners planner)
  fire : ∀ rule ∈ planner.registry.rules, ∀ before g m, P before → m ∈ (before.group g).members →
    ∀ s : Search ν, P s.memo → before.members.size ≤ s.memo.members.size →
      P ((fire planner rule m).run.run s).2.memo
  convert : ∀ hop ∈ planner.registry.conversions, hop.1 ≠ hop.2 → ∀ memo g, g < memo.groups.size →
    P memo →
    P ((Memo.addTo g (.converter hop.1) hop.2 [g] [hop.1] converterOrigin).run.run memo).2

namespace IsKept

variable (h : IsKept planner P)

include h

/-- Rules are fired for members of a group that exist, and no member goes. -/
theorem fireGroup (g : GroupId) : Keeps (fun s => P s.memo) (fireGroup planner g) := by
  intro s hs
  have hkeeps : Keeps (fun t => P t.memo ∧ s.memo.members.size ≤ t.memo.members.size)
      ((s.memo.group g).members.allM fun m =>
        planner.registry.rules.allM fun rule => Search.fire planner rule m) :=
    keeps_allM fun m hm => keeps_allM fun rule hrule t ht =>
      ⟨h.fire rule hrule s.memo g m hs hm t ht.1 ht.2,
        (isKeptByEdits_size _).fire planner rule m t ht.2⟩
  exact (hkeeps s ⟨hs, Nat.le_refl _⟩).1

theorem fireAll : Keeps (fun s => P s.memo) (fireAll planner) := by
  refine keeps_memoNow.bind fun before => ?_
  exact (keeps_allM fun g _ => h.fireGroup g).bind fun _ => keeps_memoNow.bind fun _ => keeps_pure _

/-! ## Converters -/

/-- A converter is added to a group that exists, and no group goes. -/
theorem insertHop {n : Nat} {g : GroupId} (hg : g < n) {hop : Convention × Convention}
    (hhop : hop ∈ planner.registry.conversions ∧ hop.1 ≠ hop.2) (bounded : Bool) :
    Keeps (fun s => P s.memo ∧ n ≤ s.memo.groups.size) (insertHop planner bounded g hop) := by
  have hadd : Keeps (fun s : Search ν => P s.memo ∧ n ≤ s.memo.groups.size) (do
      let _ ← edit (Memo.addTo g (.converter hop.1) hop.2 [g] [hop.1] converterOrigin)
      return true) := by
    refine Keeps.bind (keeps_edit (P := fun memo => P memo ∧ n ≤ memo.groups.size) ?_)
      fun _ => keeps_pure true
    rintro memo ⟨hmemo, hsize⟩
    refine ⟨h.convert hop hhop.1 hhop.2 memo g (Nat.lt_of_lt_of_le hg hsize) hmemo, ?_⟩
    exact hsize.trans_eq (Memo.keeps_size_addTo _ g _ _ _ _ _ memo rfl).symm
  cases bounded with
  | false => exact hadd
  | true =>
      refine (keeps_spend (P := fun memo => P memo ∧ n ≤ memo.groups.size) _).bind fun goesOn => ?_
      cases goesOn with
      | false => exact keeps_pure false
      | true => exact hadd

theorem convertTo {n : Nat} {g : GroupId} (hg : g < n) (bounded : Bool)
    (source target : Convention) :
    Keeps (fun s => P s.memo ∧ n ≤ s.memo.groups.size)
      (Search.convert planner bounded g source target) := by
  refine keeps_get.bind fun s => ?_
  split
  · exact keeps_pure true
  · have hmark : Keeps (fun s : Search ν => P s.memo ∧ n ≤ s.memo.groups.size)
        (markAttempted g source target) := keeps_modify fun _ hs => hs
    split
    · exact hmark.bind fun _ => keeps_pure true
    · next path hpath =>
        refine (keeps_allM fun hop hhop => ?_).bind fun goesOn => ?_
        · exact h.insertHop hg (Conversions.mem_of_mem_hops_path hpath hhop) bounded
        · split
          · exact keeps_pure false
          · exact hmark.bind fun _ => keeps_pure true

theorem convertGroup {n : Nat} {g : GroupId} (hg : g < n) (bounded : Bool) :
    Keeps (fun s => P s.memo ∧ n ≤ s.memo.groups.size) (convertGroup planner bounded g) := by
  rintro s ⟨hs, hsize⟩
  -- the converters are added to the leader, which exists from here on
  have hleader : s.memo.leader g < s.memo.groups.size :=
    (h.led s.memo hs).leader_lt (Nat.lt_of_lt_of_le hg hsize)
  have hkeeps : Keeps (fun t => P t.memo ∧ s.memo.groups.size ≤ t.memo.groups.size)
      (((s.memo.group (s.memo.leader g)).required.filter fun c => !c.isLogical).allM fun target =>
        (presentConventions s.memo (s.memo.leader g)).allM fun source =>
          Search.convert planner bounded (s.memo.leader g) source target) :=
    keeps_allM fun target _ => keeps_allM fun source _ =>
      h.convertTo hleader bounded source target
  obtain ⟨hafter, hle⟩ := hkeeps s ⟨hs, Nat.le_refl _⟩
  unfold Search.convertGroup
  rw [run_bind_of_ok (show (memoNow : Step ν (Memo ν)).run.run s = (.ok s.memo, s) from rfl)]
  exact ⟨hafter, hsize.trans hle⟩

theorem convertAll (bounded : Bool) : Keeps (fun s => P s.memo) (convertAll planner bounded) := by
  intro s hs
  have hkeeps : Keeps (fun t => P t.memo ∧ s.memo.groups.size ≤ t.memo.groups.size)
      (s.memo.liveGroups.allM (Search.convertGroup planner bounded)) := by
    refine keeps_allM fun g hg => h.convertGroup ?_ bounded
    exact List.mem_range.mp (List.mem_filter.mp hg).1
  -- counting the members afterwards changes nothing
  refine (hkeeps.bind fun finished => ?_ : Keeps _ (do
    let finished ← s.memo.liveGroups.allM (Search.convertGroup planner bounded)
    let after ← memoNow
    pure (!finished || decide (s.memo.memberCount < after.memberCount)))) s
      ⟨hs, Nat.le_refl _⟩ |>.1
  exact (keeps_memoNow (P := fun memo => P memo ∧ s.memo.groups.size ≤ memo.groups.size)).bind
    fun _ => keeps_pure _

/-! ## Whole searches -/

theorem meetsCeiling (root : GroupId) (goal : Goal ν) :
    Keeps (fun s => P s.memo) (meetsCeiling planner root goal) := by
  unfold Search.meetsCeiling
  split
  · exact keeps_pure false
  · refine h.findWinners.bind fun _ => keeps_memoNow.bind fun memo => ?_
    split
    · exact keeps_pure false
    · exact keeps_pure _

theorem expand (root : GroupId) (goal : Goal ν) (fuel : Nat) :
    Keeps (fun s => P s.memo) (expand planner root goal fuel) := by
  induction fuel with
  | zero => exact keeps_pure true
  | succ fuel ih =>
      refine keeps_get.bind fun s => ?_
      split
      · exact keeps_pure true
      · refine (h.meetsCeiling root goal).bind fun met => ?_
        split
        · exact keeps_pure false
        · refine h.fireAll.bind fun fired => (h.convertAll true).bind fun converted => ?_
          split
          · exact ih
          · exact keeps_pure false

theorem settleGoal (root : GroupId) (goal : Goal ν) :
    Keeps (fun s => P s.memo) (settleGoal planner root goal) := by
  refine h.findWinners.bind fun _ => keeps_memoNow.bind fun memo => ?_
  split
  · exact keeps_pure _
  · exact (h.convertAll false).bind fun _ => h.findWinners.bind fun _ =>
      keeps_memoNow.bind fun _ => keeps_pure _

/-- A search keeps what everything that it does keeps. -/
theorem optimize (root : GroupId) (goal : Goal ν) :
    Keeps (fun s => P s.memo) (optimize planner root goal) := by
  refine (keeps_modifyMemo fun memo hmemo => h.require memo root goal.convention hmemo).bind
    fun _ => keeps_get.bind fun s => ?_
  refine (h.expand root goal _).bind fun exhausted =>
    (h.settleGoal root goal).bind fun settled => ?_
  split
  · split
    · exact keeps_get.bind fun _ => keeps_throw _
    · exact keeps_memoNow.bind fun _ => keeps_throw _
  · exact keeps_memoNow.bind fun memo => (keeps_lift _).bind fun _ => keeps_pure _

end IsKept

/-! ## What searches end with -/

/-- Settling the goal ends with winners that were found, after nothing but what searches do. -/
theorem returns_settleGoal {root : GroupId} {goal : Goal ν} {s t : Search ν}
    {r : Option (Winner ν)} (h : Returns (settleGoal planner root goal) s r t) :
    ∃ u, (∀ P, IsKept planner P → P s.memo → P u.memo) ∧ Returns (findWinners planner) u () t ∧
      t.memo.winner root goal.convention = r := by
  unfold settleGoal at h
  obtain ⟨_, u, hu, hmore⟩ := returns_bind.mp h
  obtain ⟨memo, v, hmemo, hanswer⟩ := returns_bind.mp hmore
  obtain ⟨rfl, rfl⟩ := returns_memoNow.mp hmemo
  rcases hw : v.memo.winner root goal.convention with _ | w
  · rw [hw] at hanswer
    obtain ⟨_, x, hconvert, hagain⟩ := returns_bind.mp hanswer
    obtain ⟨_, y, hfind, hlast⟩ := returns_bind.mp hagain
    obtain ⟨memo, z, hmemo, hanswer⟩ := returns_bind.mp hlast
    obtain ⟨rfl, rfl⟩ := returns_memoNow.mp hmemo
    obtain ⟨rfl, rfl⟩ := returns_pure.mp hanswer
    refine ⟨x, fun P hP hs => ?_, hfind, rfl⟩
    exact (hP.convertAll false).of_returns hconvert (hP.findWinners.of_returns hu hs)
  · rw [hw] at hanswer
    obtain ⟨rfl, rfl⟩ := returns_pure.mp hanswer
    exact ⟨s, fun P _ hs => hs, hu, hw⟩

/-- The plan that a search returns is read off winners that were found last, after nothing but
what searches do. -/
theorem returns_optimize {root : GroupId} {goal : Goal ν} {s t : Search ν} {plan : Plan ν}
    (h : Returns (optimize planner root goal) s plan t) :
    ∃ u, (∀ P, IsKept planner P → P s.memo → P u.memo) ∧ Returns (findWinners planner) u () t ∧
      t.memo.extract root goal.convention = .ok plan.root := by
  unfold optimize at h
  obtain ⟨_, required, hrequired, hafter⟩ := returns_bind.mp h
  rw [returns_modifyMemo] at hrequired
  obtain ⟨_, _, hget, hsearch⟩ := returns_bind.mp hafter
  obtain ⟨rfl, rfl⟩ := returns_get.mp hget
  obtain ⟨exhausted, expanded, hexpand, hrest⟩ := returns_bind.mp hsearch
  obtain ⟨settled, v, hsettle, hanswer⟩ := returns_bind.mp hrest
  obtain ⟨u, hkept, hfind, -⟩ := returns_settleGoal hsettle
  -- first the root is required, then the memo expanded, then the goal settled
  have hall : ∀ P, IsKept planner P → P s.memo → P u.memo := by
    intro P hP hs
    refine hkept P hP ((hP.expand root goal _).of_returns hexpand ?_)
    rw [hrequired]
    exact hP.require s.memo root goal.convention hs
  cases settled with
  | none =>
      dsimp only at hanswer
      split at hanswer
      · obtain ⟨_, _, _, hthrow⟩ := returns_bind.mp hanswer
        exact (returns_throw.mp hthrow).elim
      · obtain ⟨_, _, _, hthrow⟩ := returns_bind.mp hanswer
        exact (returns_throw.mp hthrow).elim
  | some w =>
      obtain ⟨_, _, hmemo, hextract⟩ := returns_bind.mp hanswer
      obtain ⟨rfl, rfl⟩ := returns_memoNow.mp hmemo
      obtain ⟨node, _, hnode, hplan⟩ := returns_bind.mp hextract
      obtain ⟨hnode, rfl⟩ := returns_lift.mp hnode
      obtain ⟨rfl, rfl⟩ := returns_pure.mp hplan
      exact ⟨u, hall, hfind, hnode⟩

end Search

end QueryPlanner
