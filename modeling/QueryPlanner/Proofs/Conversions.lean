/-
# Chains of conversions

The search for a chain of conversions looks at every convention once, so the number of the
registered conversions is fuel enough. It notes down where every convention was reached from, and
going back from the target these notes give a chain: the one that a search finds which keeps whole
routes in its queue. That search finds a chain wherever there is one, and what the hops of a chain
carry over comes from its first convention to its last.

* `Explores`, `Traces` : the search and the way back without bounds, and `comesTo_path` : both end
  within their bounds;
* `length_unseen_add_pending` : what a step reaches is taken from what is pending;
* `Finds` : the search with whole routes, and `exists_finds_path` : it gives the same chains;
* `Finds.isSome`, `isSome_path` : where there is a chain, one is found;
* `Finds.ends`, `mem_of_mem_hops_path` : its hops are registered conversions;
* `carries_path` : what all of its hops carry over.
-/
import Mathlib.Data.List.Chain
import Mathlib.Data.List.Nodup
import Mathlib.Data.List.Perm.Subperm
import Mathlib.Data.Option.Basic
import Mathlib.Logic.Relation
import QueryPlanner.Convention

namespace QueryPlanner

/-- Without its duplicates, a list has everything once. -/
theorem nodup_eraseDups {α : Type} [DecidableEq α] : ∀ as : List α, as.eraseDups.Nodup
  | [] => List.nodup_nil
  | a :: rest => by
      rw [List.eraseDups_cons, List.nodup_cons, List.mem_eraseDups, List.mem_filter]
      exact ⟨by simp, nodup_eraseDups _⟩
termination_by as => as.length
decreasing_by exact Nat.lt_succ_of_le (List.length_filter_le ..)

namespace Conversions

variable {conversions : Conversions} {source target current : Convention}
  {pairs : List (Convention × Convention)} {seen : List Convention}

/-- Conversions lead from one convention to the other, one after another. -/
abbrev Leads {γ : Type} [Membership (Convention × Convention) γ] (conversions : γ)
    (source target : Convention) : Prop :=
  Relation.ReflTransGen (fun a b => (a, b) ∈ conversions) source target

/-! ## The search without bounds -/

/-- A search without a bound on its steps: it ends when nothing waits or the target is seen. -/
inductive Explores (conversions : Conversions) (target : Convention) : Walk → Option Walk → Prop
  | nothing (seen : List Convention) (previous : Dictionary Convention Convention) :
      Explores conversions target ⟨[], seen, previous⟩ none
  | found {current : Convention} {queue seen : List Convention}
      {previous : Dictionary Convention Convention} {walk : Walk}
      (h : visit target current (conversions.successors current) ⟨queue, seen, previous⟩ =
        (true, walk)) :
      Explores conversions target ⟨current :: queue, seen, previous⟩ (some walk)
  | goOn {current : Convention} {queue seen : List Convention}
      {previous : Dictionary Convention Convention} {walk : Walk} {r : Option Walk}
      (h : visit target current (conversions.successors current) ⟨queue, seen, previous⟩ =
        (false, walk))
      (hrest : Explores conversions target walk r) :
      Explores conversions target ⟨current :: queue, seen, previous⟩ r

/-- The way back from a convention without a bound on its length. -/
inductive Traces (previous : Dictionary Convention Convention) :
    Convention → List Convention → List Convention → Prop
  | start {cursor : Convention} (way : List Convention) (h : previous.get? cursor = none) :
      Traces previous cursor way way
  | back {cursor earlier : Convention} {way path : List Convention}
      (h : previous.get? cursor = some earlier)
      (hrest : Traces previous earlier (earlier :: way) path) : Traces previous cursor way path

/-- What a search without bounds for a chain between two different conventions comes to. -/
def ComesTo (conversions : Conversions) (source target : Convention)
    (path : Option (List Convention)) : Prop :=
  ∃ r, Explores conversions target ⟨[source], [source], []⟩ r ∧
    Option.Rel (fun walk path => Traces walk.previous target [target] path) r path

/-! ## One step -/

/-- The conventions of a list that were not seen yet, each once. -/
def newOnes (nexts seen : List Convention) : List Convention :=
  (nexts.filter fun c => !seen.contains c).eraseDups

theorem newOnes_cons_of_mem {next : Convention} {rest : List Convention} (h : next ∈ seen) :
    newOnes (next :: rest) seen = newOnes rest seen := by
  unfold newOnes
  rw [List.filter_cons_of_neg (by simpa using h)]

theorem newOnes_cons_of_not_mem {next : Convention} {rest : List Convention} (h : next ∉ seen) :
    newOnes (next :: rest) seen = next :: newOnes rest (seen ++ [next]) := by
  unfold newOnes
  rw [List.filter_cons_of_pos (by simpa using h), List.eraseDups_cons, List.filter_filter]
  congr 2
  refine List.filter_congr fun c _ => ?_
  by_cases hc : c ∈ seen
  · simp [hc]
  · by_cases hnext : c = next
    · simp [hnext]
    · simp [hc, hnext]

/-- The walk after new conventions were reached from one. -/
def Walk.reach (walk : Walk) (current : Convention) (reached : List Convention) : Walk where
  queue := walk.queue
  seen := walk.seen ++ reached
  previous := reached.foldl (fun previous c => previous.insert c current) walk.previous

/-- What new conventions were reached from, and nothing else is noted down. -/
theorem Walk.get?_previous_reach (walk : Walk) (current : Convention) (reached : List Convention)
    (c : Convention) : (walk.reach current reached).previous.get? c =
      if c ∈ reached then some current else walk.previous.get? c := by
  show (reached.foldl (fun previous c => previous.insert c current) walk.previous).get? c = _
  induction reached using List.reverseRecOn with
  | nil => rw [if_neg List.not_mem_nil, List.foldl_nil]
  | append_singleton reached last ih =>
      rw [List.foldl_append, List.foldl_cons, List.foldl_nil, Dictionary.get?_insert, ih]
      by_cases hlast : last = c
      · simp [hlast]
      · simp [hlast, Ne.symm hlast]

/-- A step that does not see the target reaches all that is new. -/
theorem visit_of_not_mem (current : Convention) (walk : Walk) {nexts : List Convention}
    (h : target ∉ newOnes nexts walk.seen) :
    visit target current nexts walk =
      (false, { walk.reach current (newOnes nexts walk.seen) with
        queue := walk.queue ++ newOnes nexts walk.seen }) := by
  induction nexts generalizing walk with
  | nil => simp [visit, newOnes, Walk.reach]
  | cons next rest ih =>
      unfold visit
      by_cases hseen : next ∈ walk.seen
      · rw [newOnes_cons_of_mem hseen] at h ⊢
        rw [if_pos (List.contains_iff_mem.mpr hseen)]
        exact ih walk h
      · rw [newOnes_cons_of_not_mem hseen, List.mem_cons, not_or] at h
        rw [if_neg fun hmem => hseen (List.contains_iff_mem.mp hmem), newOnes_cons_of_not_mem hseen]
        dsimp only
        rw [if_neg (Ne.symm h.1), ih _ h.2]
        simp [Walk.reach]

/-- A step that sees the target reaches what is new before it. -/
theorem visit_of_mem (current : Convention) (walk : Walk) {nexts : List Convention}
    (h : target ∈ newOnes nexts walk.seen) :
    ∃ before after, newOnes nexts walk.seen = before ++ target :: after ∧
      visit target current nexts walk =
        (true, { walk.reach current (before ++ [target]) with queue := walk.queue ++ before }) := by
  induction nexts generalizing walk with
  | nil => exact absurd h List.not_mem_nil
  | cons next rest ih =>
      unfold visit
      by_cases hseen : next ∈ walk.seen
      · rw [newOnes_cons_of_mem hseen] at h ⊢
        rw [if_pos (List.contains_iff_mem.mpr hseen)]
        exact ih walk h
      · rw [newOnes_cons_of_not_mem hseen] at h ⊢
        rw [if_neg fun hmem => hseen (List.contains_iff_mem.mp hmem)]
        dsimp only
        by_cases hnext : next = target
        · subst hnext
          refine ⟨[], _, rfl, ?_⟩
          rw [if_pos rfl]
          simp [Walk.reach]
        · obtain ⟨before, after, hsplit, hvisit⟩ :=
            ih { queue := walk.queue ++ [next], seen := walk.seen ++ [next],
                 previous := walk.previous.insert next current }
              ((List.mem_cons.mp h).resolve_left (Ne.symm hnext))
          refine ⟨next :: before, after, congrArg (next :: ·) hsplit, ?_⟩
          rw [if_neg hnext, hvisit]
          simp [Walk.reach]

section Visited

variable {walk walk' : Walk} {nexts : List Convention}

/-- After a step that does not stop, the target was not reached, and all that is new was. -/
theorem of_visit_eq_false (h : visit target current nexts walk = (false, walk')) :
    target ∉ newOnes nexts walk.seen ∧
      walk' = { walk.reach current (newOnes nexts walk.seen) with
        queue := walk.queue ++ newOnes nexts walk.seen } := by
  by_cases htarget : target ∈ newOnes nexts walk.seen
  · obtain ⟨before, after, -, hvisit⟩ := visit_of_mem current walk htarget
    rw [h] at hvisit
    cases hvisit
  · rw [visit_of_not_mem current walk htarget] at h
    exact ⟨htarget, (Prod.mk.inj h).2.symm⟩

/-- After a step that stops, the target and what is new before it was reached. -/
theorem of_visit_eq_true (h : visit target current nexts walk = (true, walk')) :
    ∃ before after, newOnes nexts walk.seen = before ++ target :: after ∧
      walk' = { walk.reach current (before ++ [target]) with queue := walk.queue ++ before } := by
  by_cases htarget : target ∈ newOnes nexts walk.seen
  · obtain ⟨before, after, hsplit, hvisit⟩ := visit_of_mem current walk htarget
    rw [h] at hvisit
    exact ⟨before, after, hsplit, (Prod.mk.inj hvisit).2⟩
  · rw [visit_of_not_mem current walk htarget] at h
    cases h

end Visited

/-! ## Routes -/

/-- A chain of conversions, its last convention first. -/
abbrev Route : Type := List Convention

variable {queue : List Route}

/-- The conventions that a convention leads to and that no route has reached yet, each once. -/
def unseen (pairs : List (Convention × Convention)) (source : Convention) (seen : List Convention) :
    List Convention :=
  newOnes (outgoing pairs source) seen

/-- The unseen conventions are reached by one conversion and by no route before. -/
theorem mem_unseen (pairs : List (Convention × Convention)) (source : Convention)
    (seen : List Convention) (target : Convention) :
    target ∈ unseen pairs source seen ↔ (source, target) ∈ pairs ∧ target ∉ seen := by
  unfold unseen newOnes
  rw [List.mem_eraseDups, List.mem_filter, mem_outgoing]
  simp

/-- A search with whole routes in its queue: it extends the route that waited longest by one
conversion in every way that reaches a new convention, until one of them reaches the target. -/
inductive Finds (pairs : List (Convention × Convention)) (target : Convention) :
    List Route → List Convention → Option Route → Prop
  | nothing (seen : List Convention) : Finds pairs target [] seen none
  | found {current : Convention} {earlier : Route} {queue : List Route} {seen : List Convention}
      (h : target ∈ unseen pairs current seen) :
      Finds pairs target ((current :: earlier) :: queue) seen (some (target :: current :: earlier))
  | extend {current : Convention} {earlier : Route} {queue : List Route} {seen : List Convention}
      {r : Option Route} (h : target ∉ unseen pairs current seen)
      (hrest : Finds pairs target
        (queue ++ (unseen pairs current seen).map fun c => c :: current :: earlier)
        (seen ++ unseen pairs current seen) r) :
      Finds pairs target ((current :: earlier) :: queue) seen r

/-! ## Bounds -/

/-- How many conversions lead to conventions that no route has reached. -/
def pending (pairs : List (Convention × Convention)) (seen : List Convention) : Nat :=
  pairs.countP fun hop => !seen.contains hop.2

/-- What is pending is reached now, or stays so. -/
theorem pending_append (pairs : List (Convention × Convention)) (seen reached : List Convention) :
    pending pairs seen = pending pairs (seen ++ reached) +
      pairs.countP fun hop => !seen.contains hop.2 && reached.contains hop.2 := by
  unfold pending
  induction pairs with
  | nil => rfl
  | cons hop rest ih =>
      simp only [List.countP_cons, ih]
      by_cases hseen : hop.2 ∈ seen
      · simp [hseen]
      · by_cases hnew : hop.2 ∈ reached
        · simp [hseen, hnew]
          omega
        · simp [hseen, hnew]
          omega

/-- Every convention that is reached for the first time was the end of a pending conversion. -/
theorem length_unseen_add_pending (pairs : List (Convention × Convention)) (source : Convention)
    (seen : List Convention) :
    (unseen pairs source seen).length +
      pending pairs (seen ++ unseen pairs source seen) ≤ pending pairs seen := by
  have hsub : unseen pairs source seen ⊆ (pairs.filter fun hop =>
      !seen.contains hop.2 && (unseen pairs source seen).contains hop.2).map Prod.snd := by
    intro c hc
    obtain ⟨hconversion, hnew⟩ := (mem_unseen pairs source seen c).mp hc
    exact List.mem_map.mpr ⟨(source, c), List.mem_filter.mpr ⟨hconversion, by simp [hnew, hc]⟩, rfl⟩
  have hnodup : (unseen pairs source seen).Nodup := nodup_eraseDups _
  have hlength := (List.subperm_of_subset hnodup hsub).length_le
  rw [List.length_map, ← List.countP_eq_length_filter] at hlength
  have hsplit := pending_append pairs seen (unseen pairs source seen)
  omega

/-- From a convention lead the links that start at it. -/
theorem successors_eq (conversions : Conversions) (source : Convention) :
    conversions.successors source = outgoing conversions.links source := by
  have hparts : ∀ sources : List Convention, sources.Nodup →
      outgoing (sources.flatMap fun source =>
        (conversions.successors source).map fun target => (source, target)) source =
          if source ∈ sources then conversions.successors source else [] := by
    intro sources hnodup
    induction sources with
    | nil => rfl
    | cons a rest ih =>
        obtain ⟨hnew, hrest⟩ := List.nodup_cons.mp hnodup
        rw [List.flatMap_cons]
        unfold outgoing at ih ⊢
        rw [List.filter_append, List.map_append, ih hrest, List.filter_map, List.map_map]
        by_cases ha : a = source
        · subst ha
          simp [hnew, Function.comp_def]
        · simp [ha, Ne.symm ha, Function.comp_def]
  unfold links
  rw [hparts _ (nodup_eraseDups _)]
  split
  · rfl
  · next hnone =>
      unfold successors
      rcases hedges : conversions.edges.get? source with _ | targets
      · rfl
      · refine absurd (List.mem_eraseDups.mpr ?_) hnone
        exact List.mem_map_of_mem (Dictionary.mem_of_get?_eq_some hedges)

theorem mem_links {hop : Convention × Convention} : hop ∈ conversions.links ↔ hop ∈ conversions := by
  rw [mem_iff, successors_eq, mem_outgoing]

/-- The search ends before its steps are used up. -/
theorem explores_explore (target : Convention) {fuel : Nat} {walk : Walk}
    (hfuel : walk.queue.length + pending conversions.links walk.seen ≤ fuel) :
    Explores conversions target walk (explore conversions target fuel walk) := by
  induction fuel generalizing walk with
  | zero =>
      obtain ⟨queue, seen, previous⟩ := walk
      obtain rfl : queue = [] := List.length_eq_zero_iff.mp (by dsimp only at hfuel; omega)
      exact .nothing seen previous
  | succ fuel ih =>
      obtain ⟨_ | ⟨current, queue⟩, seen, previous⟩ := walk
      · exact .nothing seen previous
      · unfold explore
        dsimp only
        rcases hvisit : visit target current (conversions.successors current)
          ⟨queue, seen, previous⟩ with ⟨_ | _, walk⟩
        · refine .goOn hvisit (ih ?_)
          obtain ⟨-, rfl⟩ := of_visit_eq_false hvisit
          have hreached := length_unseen_add_pending conversions.links current seen
          unfold unseen at hreached
          rw [← successors_eq] at hreached
          dsimp only [Walk.reach] at hfuel ⊢
          rw [List.length_append]
          rw [List.length_cons] at hfuel
          omega
        · exact .found hvisit

/-- What a search without bounds finds is what the search finds. -/
theorem exists_explores (conversions : Conversions) (hne : source ≠ target) : ∃ r,
    Explores conversions target ⟨[source], [source], []⟩ r ∧ conversions.path source target =
      r.map fun walk => trace walk.previous walk.seen.length target [target] := by
  refine ⟨_, explores_explore target ?_, if_neg hne⟩
  have hcount : pending conversions.links [source] ≤ conversions.links.length :=
    List.countP_le_length
  rw [List.length_singleton, Nat.add_comm]
  exact Nat.succ_le_succ hcount

/-! ## The search follows routes -/

/-- Where a route goes back is noted down, and its end was not reached from anywhere. -/
inductive Noted (previous : Dictionary Convention Convention) : Route → Prop
  | start {c : Convention} (h : previous.get? c = none) : Noted previous [c]
  | step {c earlier : Convention} {rest : Route} (h : previous.get? c = some earlier)
      (hrest : Noted previous (earlier :: rest)) : Noted previous (c :: earlier :: rest)

section Notes

variable {previous : Dictionary Convention Convention} {c : Convention} {route rest : Route}

theorem noted_cons_cons {earlier : Convention} : Noted previous (c :: earlier :: rest) ↔
    previous.get? c = some earlier ∧ Noted previous (earlier :: rest) :=
  ⟨fun | .step h hrest => ⟨h, hrest⟩, fun ⟨h, hrest⟩ => .step h hrest⟩

/-- Notes about other conventions do not matter. -/
theorem Noted.congr {previous' : Dictionary Convention Convention} (h : Noted previous route)
    (hsame : ∀ c ∈ route, previous'.get? c = previous.get? c) : Noted previous' route := by
  induction h with
  | start h => exact .start ((hsame _ List.mem_cons_self).trans h)
  | step h _ ih =>
      obtain ⟨hfirst, hrest⟩ := List.forall_mem_cons.mp hsame
      exact .step (hfirst.trans h) (ih hrest)

/-- The way back along a route that is noted down. -/
theorem traces_of_noted (h : Noted previous (c :: rest)) (way : List Convention) :
    Traces previous c way (rest.reverse ++ way) := by
  induction rest generalizing c way with
  | nil =>
      cases h with
      | start h => exact .start way h
  | cons earlier rest ih =>
      obtain ⟨hfirst, hrest⟩ := noted_cons_cons.mp h
      rw [List.reverse_cons, List.append_assoc, List.singleton_append]
      exact .back hfirst (ih hrest (earlier :: way))

/-- The length of the route is bound enough for it. -/
theorem trace_of_noted (h : Noted previous (c :: rest)) (way : List Convention) {fuel : Nat}
    (hfuel : rest.length ≤ fuel) : trace previous fuel c way = rest.reverse ++ way := by
  induction rest generalizing c way fuel with
  | nil =>
      cases h with
      | start h =>
          cases fuel with
          | zero => rfl
          | succ fuel => simp [trace, h]
  | cons earlier rest ih =>
      obtain ⟨hfirst, hrest⟩ := noted_cons_cons.mp h
      cases fuel with
      | zero => cases hfuel
      | succ fuel =>
          unfold trace
          rw [hfirst]
          dsimp only
          rw [ih hrest _ (Nat.le_of_succ_le_succ hfuel), List.reverse_cons, List.append_assoc,
            List.singleton_append]

end Notes

/-- A route of conventions that a walk saw, each once, along what it noted down. -/
structure Records (walk : Walk) (route : Route) : Prop where
  noted : Noted walk.previous route
  nodup : route.Nodup
  subset_seen : route ⊆ walk.seen

namespace Records

variable {walk : Walk} {route earlier : Route} {reached : List Convention}

/-- What is reached for the first time is not on a route that was seen. -/
theorem reach (h : Records walk route) (current : Convention) (hnew : ∀ c ∈ reached, c ∉ walk.seen) :
    Records (walk.reach current reached) route where
  noted := h.noted.congr fun c hc => by
    rw [Walk.get?_previous_reach, if_neg fun hreached => hnew c hreached (h.subset_seen hc)]
  nodup := h.nodup
  subset_seen _ hc := List.mem_append_left _ (h.subset_seen hc)

/-- What is reached extends the route by which it is reached. -/
theorem extend (h : Records walk (current :: earlier)) (hnew : ∀ c ∈ reached, c ∉ walk.seen)
    {c : Convention} (hc : c ∈ reached) :
    Records (walk.reach current reached) (c :: current :: earlier) := by
  have hroute := h.reach current hnew
  refine ⟨.step ?_ hroute.noted, ?_, ?_⟩
  · rw [Walk.get?_previous_reach, if_pos hc]
  · exact List.nodup_cons.mpr ⟨fun hmem => hnew c hc (h.subset_seen hmem), h.nodup⟩
  · exact List.cons_subset.mpr ⟨List.mem_append_right _ hc, hroute.subset_seen⟩

/-- What waits in the walk does not matter. -/
theorem requeue (h : Records walk route) (waiting : List Convention) :
    Records { walk with queue := waiting } route :=
  ⟨h.noted, h.nodup, h.subset_seen⟩

/-- A route is not longer than what was seen. -/
theorem length_le {c : Convention} {rest : Route} (h : Records walk (c :: rest)) :
    rest.length ≤ walk.seen.length :=
  Nat.le_of_succ_le (List.subperm_of_subset h.nodup h.subset_seen).length_le

end Records

/-- What waits in a walk are the ends of routes that it records. -/
structure Follows (walk : Walk) (queue : List Route) : Prop where
  ends : List.Forall₂ (fun c route => ∃ earlier, route = c :: earlier) walk.queue queue
  records : ∀ route ∈ queue, Records walk route

/-- When the route that waited longest is extended, the walk goes on along more routes. -/
theorem Follows.extend {earlier : Route} {waiting : List Convention}
    {previous : Dictionary Convention Convention} {reached : List Convention}
    (h : Follows ⟨current :: waiting, seen, previous⟩ ((current :: earlier) :: queue))
    (hnew : ∀ c ∈ reached, c ∉ seen) :
    Follows { Walk.reach ⟨waiting, seen, previous⟩ current reached with queue := waiting ++ reached }
      (queue ++ reached.map fun c => c :: current :: earlier) := by
  obtain ⟨hends, hrecords⟩ := h
  obtain ⟨-, hends⟩ := List.forall₂_cons.mp hends
  obtain ⟨hfirst, hrecords⟩ := List.forall_mem_cons.mp hrecords
  constructor
  · refine List.rel_append hends ?_
    rw [List.forall₂_map_right_iff, List.forall₂_same]
    exact fun c _ => ⟨_, rfl⟩
  · refine List.forall_mem_append.mpr ⟨fun route hroute => ?_, fun route hroute => ?_⟩
    · exact ((hrecords route hroute).reach current hnew).requeue _
    · obtain ⟨c, hc, rfl⟩ := List.mem_map.mp hroute
      exact (hfirst.extend hnew hc).requeue _

section Routes

variable (hpairs : ∀ a, conversions.successors a = outgoing pairs a)

include hpairs

/-- The search ends as the search with routes does, with a route that it recorded. -/
theorem Explores.exists_finds {walk : Walk} {r : Option Walk} (h : Explores conversions target walk r)
    (hfollows : Follows walk queue) : ∃ r', Finds pairs target queue walk.seen r' ∧
      Option.Rel (fun walk route => Records walk route ∧ ∃ earlier, route = target :: earlier) r r' := by
  induction h generalizing queue with
  | nothing seen previous =>
      obtain rfl := List.forall₂_nil_left_iff.mp hfollows.ends
      exact ⟨none, .nothing seen, .none⟩
  | @found current waiting seen previous walk hvisit =>
      obtain ⟨_, queue, ⟨earlier, rfl⟩, -, rfl⟩ := List.forall₂_cons_left_iff.mp hfollows.ends
      obtain ⟨before, after, hsplit, rfl⟩ := of_visit_eq_true hvisit
      rw [hpairs] at hsplit
      -- what was reached, and what would have been reached behind the target
      have hunseen : unseen pairs current seen = (before ++ [target]) ++ after := by
        rw [List.append_assoc, List.singleton_append]
        exact hsplit
      have hnew : ∀ c ∈ before ++ [target], c ∉ seen := fun c hc =>
        ((mem_unseen pairs current seen c).mp (hunseen ▸ List.mem_append_left after hc)).2
      have htarget : target ∈ before ++ [target] :=
        List.mem_append_right _ (List.mem_singleton_self target)
      exact ⟨_, .found (hunseen ▸ List.mem_append_left after htarget),
        .some ⟨((hfollows.records _ List.mem_cons_self).extend hnew htarget).requeue _, _, rfl⟩⟩
  | @goOn current waiting seen previous walk r hvisit _ ih =>
      obtain ⟨_, queue, ⟨earlier, rfl⟩, -, rfl⟩ := List.forall₂_cons_left_iff.mp hfollows.ends
      obtain ⟨htarget, rfl⟩ := of_visit_eq_false hvisit
      rw [hpairs] at htarget ih
      obtain ⟨r', hfinds, hrel⟩ := ih (hfollows.extend fun c hc =>
        ((mem_unseen pairs current seen c).mp hc).2)
      exact ⟨r', .extend htarget hfinds, hrel⟩

end Routes

/-- Routes start alone. -/
theorem follows_singleton (source : Convention) : Follows ⟨[source], [source], []⟩ [[source]] where
  ends := .cons ⟨[], rfl⟩ .nil
  records route hroute := by
    rw [List.mem_singleton.mp hroute]
    exact ⟨.start rfl, List.nodup_singleton source, List.Subset.refl _⟩

/-- Between different conventions, the chain is what a search without bounds comes to. -/
theorem comesTo_path (conversions : Conversions) (hne : source ≠ target) :
    ComesTo conversions source target (conversions.path source target) := by
  obtain ⟨r, hexplores, hpath⟩ := exists_explores conversions hne
  obtain ⟨r', -, hrel⟩ := hexplores.exists_finds (successors_eq conversions)
    (follows_singleton source)
  refine ⟨r, hexplores, ?_⟩
  rw [hpath]
  cases hrel with
  | none => exact .none
  | some hfound =>
      obtain ⟨hrecords, earlier, rfl⟩ := hfound
      refine .some ?_
      dsimp only
      rw [trace_of_noted hrecords.noted _ hrecords.length_le]
      exact traces_of_noted hrecords.noted _

/-- The chain is the route that the search with routes finds, read from its other end. -/
theorem exists_finds_path (hpairs : ∀ a, conversions.successors a = outgoing pairs a)
    (hne : source ≠ target) : ∃ r, Finds pairs target [[source]] [source] r ∧
      conversions.path source target = r.map List.reverse := by
  obtain ⟨r, hexplores, hpath⟩ := exists_explores conversions hne
  obtain ⟨r', hfinds, hrel⟩ := hexplores.exists_finds hpairs (follows_singleton source)
  refine ⟨r', hfinds, ?_⟩
  rw [hpath]
  cases hrel with
  | none => rfl
  | some hfound =>
      obtain ⟨hrecords, earlier, rfl⟩ := hfound
      rw [Option.map_some, Option.map_some, trace_of_noted hrecords.noted _ hrecords.length_le,
        List.reverse_cons]

/-! ## Completeness -/

/-- What a search for a convention has seen so far: never that convention, and nothing that leads
to what was not seen, but for what waits in the queue. -/
structure IsOpen (pairs : List (Convention × Convention)) (source target : Convention)
    (queue : List Route) (seen : List Convention) : Prop where
  source_mem : source ∈ seen
  target_not_mem : target ∉ seen
  waits : ∀ c ∈ seen, (∃ route ∈ queue, route.head? = some c) ∨
    ∀ d, (c, d) ∈ pairs → d ∈ seen

/-- As long as a convention that can be reached was not seen, something waits. -/
theorem IsOpen.ne_nil (h : IsOpen pairs source target queue seen)
    (hleads : Leads pairs source target) : queue ≠ [] := by
  rintro rfl
  have hclosed : ∀ c, Leads pairs source c → c ∈ seen := by
    intro c hc
    induction hc with
    | refl => exact h.source_mem
    | tail _ hstep ih =>
        rcases h.waits _ ih with ⟨_, hroute, -⟩ | hnext
        · exact absurd hroute List.not_mem_nil
        · exact hnext _ hstep
  exact h.target_not_mem (hclosed target hleads)

/-- When the routes of the convention that waited longest were extended, it need not wait. -/
theorem IsOpen.extend {current : Convention} {earlier : Route}
    (h : IsOpen pairs source target ((current :: earlier) :: queue) seen)
    (htarget : target ∉ unseen pairs current seen) :
    IsOpen pairs source target
      (queue ++ (unseen pairs current seen).map fun c => c :: current :: earlier)
      (seen ++ unseen pairs current seen) := by
  constructor
  · exact List.mem_append_left _ h.source_mem
  · rw [List.mem_append, not_or]
    exact ⟨h.target_not_mem, htarget⟩
  · intro c hc
    rcases List.mem_append.mp hc with hc | hc
    · rcases h.waits c hc with ⟨route, hroute, hhead⟩ | hnext
      · rcases List.mem_cons.mp hroute with rfl | hroute
        · -- it is the one that is looked at, and all that it leads to was seen or is new
          obtain rfl : current = c := Option.some.inj hhead
          refine Or.inr fun d hd => List.mem_append.mpr ?_
          by_cases hdseen : d ∈ seen
          · exact Or.inl hdseen
          · exact Or.inr ((mem_unseen pairs current seen d).mpr ⟨hd, hdseen⟩)
        · exact Or.inl ⟨route, List.mem_append_left _ hroute, hhead⟩
      · exact Or.inr fun d hd => List.mem_append_left _ (hnext d hd)
    · exact Or.inl ⟨_, List.mem_append_right _ (List.mem_map.mpr ⟨c, hc, rfl⟩), rfl⟩

/-- The search does not miss a convention that can be reached. -/
theorem Finds.isSome {r : Option Route} (h : Finds pairs target queue seen r)
    (hopen : IsOpen pairs source target queue seen) (hleads : Leads pairs source target) :
    r.isSome := by
  induction h with
  | nothing seen => exact absurd rfl (hopen.ne_nil hleads)
  | found h => rfl
  | extend hnew _ ih => exact ih (hopen.extend hnew)

/-- Between two different conventions, the first of which leads to the second, there is a chain. -/
theorem isSome_path (hne : source ≠ target) (hleads : Leads conversions source target) :
    (conversions.path source target).isSome := by
  obtain ⟨r, hfinds, hpath⟩ := exists_finds_path (successors_eq conversions) hne
  rw [hpath, Option.isSome_map]
  have hopen : IsOpen conversions.links source target [[source]] [source] := by
    refine ⟨List.mem_singleton_self source, ?_, fun c hc => ?_⟩
    · exact fun hmem => hne (List.mem_singleton.mp hmem).symm
    · exact Or.inl ⟨[source], List.mem_singleton_self _, by rw [List.mem_singleton.mp hc]; rfl⟩
  exact hfinds.isSome hopen (hleads.lift id fun a b hab => mem_links.mpr hab)

/-! ## Hops -/

/-- Every two neighbours of a route are different, and a conversion from the second to the first. -/
abbrev IsRoute (pairs : List (Convention × Convention)) (route : Route) : Prop :=
  route.IsChain fun b a => (a, b) ∈ pairs ∧ a ≠ b

/-- Routes start where the first ones did and are only ever extended by conversions to conventions
that none of them has seen, and the one that is found ends at the target. -/
theorem Finds.ends {r : Option Route} (h : Finds pairs target queue seen r)
    (hqueue : ∀ route ∈ queue, route.getLast? = some source ∧ IsRoute pairs route ∧ route ⊆ seen) :
    ∀ route ∈ r, route.head? = some target ∧ route.getLast? = some source ∧ IsRoute pairs route := by
  have hextend : ∀ {seen : List Convention} {current : Convention} {earlier : Route},
      (current :: earlier).getLast? = some source ∧ IsRoute pairs (current :: earlier) ∧
        current :: earlier ⊆ seen → ∀ c ∈ unseen pairs current seen,
      (c :: current :: earlier).getLast? = some source ∧ IsRoute pairs (c :: current :: earlier) := by
    rintro seen current earlier ⟨hlast, hroute, hseen⟩ c hc
    obtain ⟨hconversion, hnew⟩ := (mem_unseen pairs current seen c).mp hc
    refine ⟨?_, List.isChain_cons_cons.mpr ⟨⟨hconversion, fun heq => hnew ?_⟩, hroute⟩⟩
    · rw [List.getLast?_cons_cons]
      exact hlast
    · rw [← heq]
      exact hseen List.mem_cons_self
  induction h with
  | nothing seen => exact fun _ h => nomatch h
  | found h =>
      rintro route ⟨⟩
      exact ⟨rfl, hextend (hqueue _ List.mem_cons_self) _ h⟩
  | extend _ _ ih =>
      obtain ⟨hfirst, hrest⟩ := List.forall_mem_cons.mp hqueue
      refine ih (List.forall_mem_append.mpr ⟨fun r hr => ?_, fun r hr => ?_⟩)
      · obtain ⟨hlast, hroute, hseen⟩ := hrest r hr
        exact ⟨hlast, hroute, fun c hc => List.mem_append_left _ (hseen hc)⟩
      · obtain ⟨c, hc, rfl⟩ := List.mem_map.mp hr
        obtain ⟨hlast, hroute⟩ := hextend hfirst c hc
        refine ⟨hlast, hroute, List.cons_subset.mpr ⟨List.mem_append_right _ hc, fun d hd => ?_⟩⟩
        exact List.mem_append_left _ (hfirst.2.2 hd)

/-- A chain is a route from one convention to the other, read from its other end. -/
theorem exists_route_of_path {path : List Convention}
    (hpath : conversions.path source target = some path) :
    path.head? = some source ∧ path.getLast? = some target ∧
      path.IsChain fun a b => (a, b) ∈ conversions ∧ a ≠ b := by
  have hne : source ≠ target := by
    rintro rfl
    rw [Conversions.path, if_pos rfl] at hpath
    cases hpath
  obtain ⟨r, hfinds, hr⟩ := exists_finds_path (successors_eq conversions) hne
  rw [hpath] at hr
  obtain ⟨route, rfl, rfl⟩ := Option.map_eq_some_iff.mp hr.symm
  have hstart : ∀ route ∈ [[source]],
      route.getLast? = some source ∧ IsRoute conversions.links route ∧ route ⊆ [source] := by
    intro route hroute
    rw [List.mem_singleton.mp hroute]
    exact ⟨rfl, List.isChain_singleton source, List.Subset.refl _⟩
  obtain ⟨hhead, hlast, hroute⟩ := hfinds.ends hstart route rfl
  refine ⟨?_, ?_, ?_⟩
  · rw [List.head?_reverse]
    exact hlast
  · rw [List.getLast?_reverse]
    exact hhead
  · rw [List.isChain_reverse]
    exact hroute.imp fun b a ⟨hab, hdiff⟩ => ⟨mem_links.mp hab, hdiff⟩

theorem mem_of_mem_hops {path : List Convention} {hop : Convention × Convention}
    (hpath : path.IsChain fun a b => (a, b) ∈ conversions ∧ a ≠ b) (h : hop ∈ hops path) :
    hop ∈ conversions ∧ hop.1 ≠ hop.2 := by
  induction path with
  | nil => exact absurd h List.not_mem_nil
  | cons a rest ih =>
      cases rest with
      | nil => exact absurd h List.not_mem_nil
      | cons b rest =>
          obtain ⟨hab, hrest⟩ := List.isChain_cons_cons.mp hpath
          rcases List.mem_cons.mp h with rfl | h
          · exact hab
          · exact ih hrest h

/-- The hops on the way from one convention to another are registered conversions between
different conventions. -/
theorem mem_of_mem_hops_path {path : List Convention} {hop : Convention × Convention}
    (hpath : conversions.path source target = some path) (h : hop ∈ hops path) :
    hop ∈ conversions ∧ hop.1 ≠ hop.2 :=
  mem_of_mem_hops (exists_route_of_path hpath).2.2 h

/-- What all hops of a list carry over comes from its first convention to its last. -/
theorem carries_hops {P : Convention → Prop} {path : List Convention}
    (hhead : path.head? = some source) (hlast : path.getLast? = some target) (hsource : P source)
    (hhops : ∀ hop ∈ hops path, P hop.1 → P hop.2) : P target := by
  induction path generalizing source with
  | nil => cases hhead
  | cons a rest ih =>
      obtain rfl : a = source := Option.some.inj hhead
      rcases rest with _ | ⟨b, rest⟩
      · obtain rfl : a = target := Option.some.inj hlast
        exact hsource
      · rw [List.getLast?_cons_cons] at hlast
        obtain ⟨hfirst, hmore⟩ := List.forall_mem_cons.mp
          (show ∀ hop ∈ (a, b) :: hops (b :: rest), P hop.1 → P hop.2 from hhops)
        exact ih rfl hlast (hfirst hsource) hmore

/-- So it is with the chain between two conventions. -/
theorem carries_path {P : Convention → Prop} {path : List Convention}
    (hpath : conversions.path source target = some path) (hsource : P source)
    (hhops : ∀ hop ∈ hops path, P hop.1 → P hop.2) : P target := by
  obtain ⟨hhead, hlast, -⟩ := exists_route_of_path hpath
  exact carries_hops hhead hlast hsource hhops

end Conversions

end QueryPlanner
