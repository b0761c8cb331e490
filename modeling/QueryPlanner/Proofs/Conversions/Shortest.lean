/-
# The first of the shortest chains

The search for a chain of conversions extends the route that waited longest by all new conventions,
in registration order. So routes are found in an order: shorter ones come first, and of two routes of
one length the one that takes an earlier conversion where they part. Every convention is reached by
the first of all routes that lead to it, whether the conversions go in circles or not.

* `Links` : chains of registered conversions;
* `positions` : the numbers by which chains of one length are compared, hop by hop;
* `IsBreadthFirst` : what is known of the routes that were found, kept by `IsBreadthFirst.extend`;
* `path_isFirst` : there is no chain, or the search ends with the first of the shortest.
-/
import Mathlib.Data.List.Chain
import Mathlib.Data.List.Lex
import Mathlib.Data.List.Nodup
import Mathlib.Data.Prod.Lex
import QueryPlanner.Proofs.Conversions

namespace QueryPlanner

/-! ## Lists in order -/

/-- Where two lists of one length differ, it does not matter what follows. -/
theorem append_lt_append {as bs : List ℕ} (h : as < bs) (hlen : as.length = bs.length)
    (cs ds : List ℕ) : as ++ cs < bs ++ ds := by
  induction as generalizing bs with
  | nil =>
      rw [List.length_nil, eq_comm, List.length_eq_zero_iff] at hlen
      subst hlen
      exact absurd h (lt_irrefl _)
  | cons a as ih =>
      rcases bs with _ | ⟨b, bs⟩
      · cases hlen
      · rw [List.cons_append, List.cons_append, List.cons_lt_cons_iff]
        rcases List.cons_lt_cons_iff.mp h with hlt | ⟨rfl, hlt⟩
        · exact Or.inl hlt
        · exact Or.inr ⟨rfl, ih hlt (Nat.succ.inj hlen)⟩

/-- What is kept of a list without its duplicates stands in the order of the list. -/
theorem pairwise_idxOf_eraseDups {α : Type} [DecidableEq α] (p : α → Bool) (as : List α) :
    (as.filter p).eraseDups.Pairwise fun a b => as.idxOf a < as.idxOf b := by
  induction as using List.reverseRecOn with
  | nil => exact List.Pairwise.nil
  | append_singleton as x ih =>
      have hmem : ∀ a ∈ (as.filter p).eraseDups, a ∈ as := fun a ha =>
        (List.mem_filter.mp (List.mem_eraseDups.mp ha)).1
      -- what was kept before stands where it stood
      have hkept : (as.filter p).eraseDups.Pairwise
          fun a b => (as ++ [x]).idxOf a < (as ++ [x]).idxOf b := by
        refine ih.imp_of_mem fun ha hb hlt => ?_
        rwa [List.idxOf_append_of_mem (hmem _ ha), List.idxOf_append_of_mem (hmem _ hb)]
      rw [List.filter_append, List.eraseDups_append, List.pairwise_append]
      by_cases hx : p x = true ∧ x ∉ as
      · obtain ⟨hp, hnew⟩ := hx
        have hlast : ([x].filter p).removeAll (as.filter p) = [x] := by
          simp [List.removeAll, hp, hnew]
        rw [hlast]
        refine ⟨hkept, List.pairwise_singleton _ _, fun a ha b hb => ?_⟩
        obtain rfl : b = x := List.mem_singleton.mp (List.mem_eraseDups.mp hb)
        rw [List.idxOf_append_of_mem (hmem a ha), List.idxOf_append_of_notMem hnew]
        exact Nat.lt_of_lt_of_le (List.idxOf_lt_length_of_mem (hmem a ha)) (Nat.le_add_right _ _)
      · have hnone : ([x].filter p).removeAll (as.filter p) = [] := by
          by_cases hp : p x = true
          · have hold : x ∈ as := not_not.mp fun hnew => hx ⟨hp, hnew⟩
            simp [List.removeAll, hp, hold]
          · simp [List.removeAll, hp]
        rw [hnone]
        exact ⟨hkept, List.Pairwise.nil, fun _ _ _ hb => absurd hb List.not_mem_nil⟩

/-- A list has one hop less than it has conventions. -/
theorem length_hops (chain : List Convention) : (hops chain).length = chain.length - 1 := by
  fun_induction hops chain with
  | case1 a b rest ih =>
      rw [List.length_cons, ih]
      rfl
  | case2 chain hshort =>
      rcases chain with _ | ⟨a, _ | ⟨b, rest⟩⟩
      · rfl
      · rfl
      · exact absurd rfl (hshort a b rest)

/-- The last hop of a list. -/
theorem hops_append_pair (before : List Convention) (a b : Convention) :
    hops (before ++ [a, b]) = hops (before ++ [a]) ++ [(a, b)] := by
  induction before with
  | nil => rfl
  | cons x before ih =>
      rcases before with _ | ⟨y, before⟩
      · rfl
      · exact congrArg ((x, y) :: ·) ih

namespace Conversions

variable {pairs : List (Convention × Convention)} {source target : Convention}
  {done queue : List Route} {seen : List Convention} {route other : Route}

/-! ## Chains -/

/-- A chain of conversions from one convention to another, both included. -/
structure Links (pairs : List (Convention × Convention)) (source target : Convention)
    (chain : List Convention) : Prop where
  head? : chain.head? = some source
  getLast? : chain.getLast? = some target
  registered : chain.IsChain fun a b => (a, b) ∈ pairs

/-- The hops of a chain as numbers: each is counted among the conversions that start where it does,
in registration order. -/
def positions (pairs : List (Convention × Convention)) (chain : List Convention) : List ℕ :=
  (hops chain).map fun hop => (outgoing pairs hop.1).idxOf hop.2

/-- There is a chain wherever registered conversions lead. -/
theorem exists_links_iff : (∃ chain, Links pairs source target chain) ↔
    Leads pairs source target := by
  constructor
  · rintro ⟨chain, hhead, hlast, hchain⟩
    rcases chain with _ | ⟨a, rest⟩
    · cases hhead
    · obtain rfl : a = source := Option.some.inj hhead
      refine List.relationReflTransGen_of_exists_isChain_cons rest hchain ?_
      rwa [List.getLast?_eq_some_getLast (List.cons_ne_nil _ _), Option.some.injEq] at hlast
  · intro h
    obtain ⟨rest, hchain, hlast⟩ := List.exists_isChain_cons_of_relationReflTransGen h
    refine ⟨source :: rest, rfl, ?_, hchain⟩
    rw [List.getLast?_eq_some_getLast (List.cons_ne_nil _ _), hlast]

/-- A route that goes back to a convention against registered conversions. -/
structure LeadsBack (pairs : List (Convention × Convention)) (source : Convention)
    (route : Route) : Prop where
  getLast? : route.getLast? = some source
  registered : route.IsChain fun b a => (a, b) ∈ pairs

theorem LeadsBack.ne_nil (h : LeadsBack pairs source route) : route ≠ [] := by
  rintro rfl
  cases h.getLast?

theorem leadsBack_cons_cons {a c : Convention} {rest : Route} :
    LeadsBack pairs source (c :: a :: rest) ↔
      (a, c) ∈ pairs ∧ LeadsBack pairs source (a :: rest) := by
  constructor
  · rintro ⟨hlast, hchain⟩
    rw [List.getLast?_cons_cons] at hlast
    obtain ⟨hstep, hrest⟩ := List.isChain_cons_cons.mp hchain
    exact ⟨hstep, hlast, hrest⟩
  · rintro ⟨hstep, hlast, hchain⟩
    refine ⟨?_, List.isChain_cons_cons.mpr ⟨hstep, hchain⟩⟩
    rw [List.getLast?_cons_cons]
    exact hlast

/-- Chains are routes read from their other end. -/
theorem links_reverse_iff : Links pairs source target route.reverse ↔
    LeadsBack pairs source route ∧ route.head? = some target := by
  constructor
  · rintro ⟨hhead, hlast, hchain⟩
    rw [List.head?_reverse] at hhead
    rw [List.getLast?_reverse] at hlast
    exact ⟨⟨hhead, List.isChain_reverse.mp hchain⟩, hlast⟩
  · rintro ⟨⟨hlast, hchain⟩, hhead⟩
    refine ⟨?_, ?_, List.isChain_reverse.mpr hchain⟩
    · rw [List.head?_reverse]
      exact hlast
    · rw [List.getLast?_reverse]
      exact hhead

/-! ## The order of routes -/

/-- What routes are ordered by: their length, and then the positions of their hops. -/
def rank (pairs : List (Convention × Convention)) (route : Route) : ℕ ×ₗ List ℕ :=
  toLex (route.length, positions pairs route.reverse)

theorem rank_lt_rank : rank pairs route < rank pairs other ↔
    route.length < other.length ∨ route.length = other.length ∧
      positions pairs route.reverse < positions pairs other.reverse :=
  Prod.Lex.toLex_lt_toLex

/-- The last hop of an extended route. -/
theorem positions_reverse_cons (pairs : List (Convention × Convention)) (c a : Convention)
    (rest : Route) :
    positions pairs (c :: a :: rest).reverse =
      positions pairs (a :: rest).reverse ++ [(outgoing pairs a).idxOf c] := by
  unfold positions
  rw [List.reverse_cons, List.reverse_cons, List.append_assoc, List.singleton_append,
    hops_append_pair, List.map_append]
  rfl

/-- Routes are extended in their order. -/
theorem rank_cons_lt_cons (hroute : route ≠ []) (hother : other ≠ [])
    (h : rank pairs route < rank pairs other) (c d : Convention) :
    rank pairs (c :: route) < rank pairs (d :: other) := by
  obtain ⟨a, rest, rfl⟩ := List.exists_cons_of_ne_nil hroute
  obtain ⟨b, more, rfl⟩ := List.exists_cons_of_ne_nil hother
  rw [rank_lt_rank] at h ⊢
  rcases h with hlt | ⟨hlen, hlt⟩
  · exact Or.inl (Nat.succ_lt_succ hlt)
  · refine Or.inr ⟨congrArg Nat.succ hlen, ?_⟩
    rw [positions_reverse_cons, positions_reverse_cons]
    refine append_lt_append hlt ?_ _ _
    unfold positions
    rw [List.length_map, List.length_map, length_hops, length_hops, List.length_reverse,
      List.length_reverse, hlen]

/-- A route is extended by one convention before another one in registration order. -/
theorem rank_cons_lt_of_idxOf {a c d : Convention} {rest : Route}
    (h : (outgoing pairs a).idxOf c < (outgoing pairs a).idxOf d) :
    rank pairs (c :: a :: rest) < rank pairs (d :: a :: rest) := by
  rw [rank_lt_rank, positions_reverse_cons, positions_reverse_cons]
  exact Or.inr ⟨rfl, List.append_left_lt (List.cons_lt_cons_iff.mpr (Or.inl h))⟩

/-- A route is another one or comes before it. -/
def UpTo (pairs : List (Convention × Convention)) (route other : Route) : Prop :=
  route = other ∨ rank pairs route < rank pairs other

theorem UpTo.trans {third : Route} (h : UpTo pairs route other)
    (h' : UpTo pairs other third) : UpTo pairs route third := by
  rcases h with rfl | h
  · exact h'
  · rcases h' with rfl | h'
    · exact Or.inr h
    · exact Or.inr (h.trans h')

theorem UpTo.cons (hroute : route ≠ []) (hother : other ≠ []) (h : UpTo pairs route other)
    (c : Convention) : UpTo pairs (c :: route) (c :: other) := by
  rcases h with rfl | h
  · exact Or.inl rfl
  · exact Or.inr (rank_cons_lt_cons hroute hother h c c)

theorem UpTo.length_le (h : UpTo pairs route other) : route.length ≤ other.length := by
  rcases h with rfl | h
  · exact Nat.le_refl _
  · exact (rank_lt_rank.mp h).elim Nat.le_of_lt fun heq => Nat.le_of_eq heq.1

/-! ## The search -/

/-- What is known of the routes that a search found, after it extended some of them and while others
wait in a queue. -/
structure IsBreadthFirst (pairs : List (Convention × Convention)) (source : Convention)
    (done queue : List Route) (seen : List Convention) : Prop where
  start : [source] ∈ done ++ queue
  /-- Every convention that was seen is the end of a route. -/
  mem_seen : ∀ c ∈ seen, ∃ route ∈ done ++ queue, route.head? = some c
  leadsBack : ∀ route ∈ done ++ queue, LeadsBack pairs source route
  nodup : ∀ route ∈ done ++ queue, route.Nodup
  subset_seen : ∀ route ∈ done ++ queue, route ⊆ seen
  ordered : (done ++ queue).Pairwise fun route other =>
    rank pairs route < rank pairs other
  /-- But for the first one, routes are extensions. -/
  extension : ∀ route ∈ done ++ queue,
    route = [source] ∨ ∃ c, ∃ earlier ∈ done, route = c :: earlier
  /-- What an extended route leads to was reached by a route that does not come later. -/
  extended : ∀ a earlier, a :: earlier ∈ done → ∀ c, (a, c) ∈ pairs →
    ∃ route ∈ done ++ queue, route.head? = some c ∧ UpTo pairs route (c :: a :: earlier)

namespace IsBreadthFirst

variable {current : Convention} {earlier : Route}

/-- The search starts with one route. -/
theorem init (pairs : List (Convention × Convention)) (source : Convention) :
    IsBreadthFirst pairs source [] [[source]] [source] where
  start := List.mem_singleton_self _
  mem_seen c hc := ⟨[source], List.mem_singleton_self _, by rw [List.mem_singleton.mp hc]; rfl⟩
  leadsBack route hroute := by
    obtain rfl : route = [source] := List.mem_singleton.mp hroute
    exact ⟨rfl, List.isChain_singleton source⟩
  nodup route hroute := by
    obtain rfl : route = [source] := List.mem_singleton.mp hroute
    exact List.nodup_singleton source
  subset_seen route hroute := by
    obtain rfl : route = [source] := List.mem_singleton.mp hroute
    exact List.Subset.refl _
  ordered := List.pairwise_singleton _ _
  extension route hroute := Or.inl (List.mem_singleton.mp hroute)
  extended _ _ h := absurd h List.not_mem_nil

/-- Every route that was found comes before the extensions of the one that waited longest. -/
theorem rank_lt_extension
    (h : IsBreadthFirst pairs source done ((current :: earlier) :: queue) seen)
    (hroute : route ∈ done ++ (current :: earlier) :: queue) (c : Convention) :
    rank pairs route < rank pairs (c :: current :: earlier) := by
  rcases h.extension route hroute with rfl | ⟨d, before, hbefore, rfl⟩
  · exact rank_lt_rank.mpr (Or.inl (Nat.succ_lt_succ (Nat.succ_pos _)))
  · -- it is an extension of a route that was extended earlier
    have hlt : rank pairs before < rank pairs (current :: earlier) :=
      (List.pairwise_append.mp h.ordered).2.2 before hbefore _ List.mem_cons_self
    exact rank_cons_lt_cons (h.leadsBack before (List.mem_append_left _ hbefore)).ne_nil
      (List.cons_ne_nil _ _) hlt d c

/-- When the route that waited longest is extended, the same is known of more routes. -/
theorem extend (h : IsBreadthFirst pairs source done ((current :: earlier) :: queue) seen) :
    IsBreadthFirst pairs source (done ++ [current :: earlier])
      (queue ++ (unseen pairs current seen).map fun c => c :: current :: earlier)
      (seen ++ unseen pairs current seen) := by
  have hall : done ++ [current :: earlier] ++
      (queue ++ (unseen pairs current seen).map fun c => c :: current :: earlier) =
        done ++ (current :: earlier) :: queue ++
          (unseen pairs current seen).map fun c => c :: current :: earlier := by
    simp
  have hcurrent : current :: earlier ∈ done ++ (current :: earlier) :: queue :=
    List.mem_append_right _ List.mem_cons_self
  constructor <;> rw [hall]
  case start => exact List.mem_append_left _ h.start
  case mem_seen =>
    intro c hc
    rcases List.mem_append.mp hc with hc | hc
    · obtain ⟨route, hroute, hhead⟩ := h.mem_seen c hc
      exact ⟨route, List.mem_append_left _ hroute, hhead⟩
    · exact ⟨_, List.mem_append_right _ (List.mem_map.mpr ⟨c, hc, rfl⟩), rfl⟩
  case leadsBack =>
    intro route hroute
    rcases List.mem_append.mp hroute with hroute | hroute
    · exact h.leadsBack route hroute
    · obtain ⟨c, hc, rfl⟩ := List.mem_map.mp hroute
      exact leadsBack_cons_cons.mpr ⟨((mem_unseen _ _ _ _).mp hc).1, h.leadsBack _ hcurrent⟩
  case nodup =>
    intro route hroute
    rcases List.mem_append.mp hroute with hroute | hroute
    · exact h.nodup route hroute
    · obtain ⟨c, hc, rfl⟩ := List.mem_map.mp hroute
      refine List.nodup_cons.mpr ⟨fun hmem => ?_, h.nodup _ hcurrent⟩
      exact ((mem_unseen _ _ _ _).mp hc).2 (h.subset_seen _ hcurrent hmem)
  case subset_seen =>
    intro route hroute
    rcases List.mem_append.mp hroute with hroute | hroute
    · exact fun c hc => List.mem_append_left _ (h.subset_seen route hroute hc)
    · obtain ⟨c, hc, rfl⟩ := List.mem_map.mp hroute
      intro d hd
      rcases List.mem_cons.mp hd with rfl | hd
      · exact List.mem_append_right _ hc
      · exact List.mem_append_left _ (h.subset_seen _ hcurrent hd)
  case ordered =>
    refine List.pairwise_append.mpr ⟨h.ordered, ?_, fun route hroute other hother => ?_⟩
    · rw [List.pairwise_map]
      exact (pairwise_idxOf_eraseDups _ _).imp rank_cons_lt_of_idxOf
    · obtain ⟨c, -, rfl⟩ := List.mem_map.mp hother
      exact h.rank_lt_extension hroute c
  case extension =>
    intro route hroute
    rcases List.mem_append.mp hroute with hroute | hroute
    · refine (h.extension route hroute).imp_right ?_
      rintro ⟨c, before, hbefore, rfl⟩
      exact ⟨c, before, List.mem_append_left _ hbefore, rfl⟩
    · obtain ⟨c, -, rfl⟩ := List.mem_map.mp hroute
      exact Or.inr ⟨c, _, List.mem_append_right _ (List.mem_singleton_self _), rfl⟩
  case extended =>
    intro a before hbefore c hc
    rcases List.mem_append.mp hbefore with hbefore | hbefore
    · obtain ⟨route, hroute, hfound⟩ := h.extended a before hbefore c hc
      exact ⟨route, List.mem_append_left _ hroute, hfound⟩
    · obtain ⟨rfl, rfl⟩ := List.cons.inj (List.mem_singleton.mp hbefore)
      by_cases hseen : c ∈ seen
      · obtain ⟨route, hroute, hhead⟩ := h.mem_seen c hseen
        exact ⟨route, List.mem_append_left _ hroute, hhead, Or.inr (h.rank_lt_extension hroute c)⟩
      · have hnew : c ∈ unseen pairs a seen := (mem_unseen _ _ _ _).mpr ⟨hc, hseen⟩
        exact ⟨_, List.mem_append_right _ (List.mem_map.mpr ⟨c, hnew, rfl⟩), rfl, Or.inl rfl⟩

/-- Whatever a route leads to was reached by a route that does not come later, unless it goes on from
where such a route waits. -/
theorem covers (h : IsBreadthFirst pairs source done queue seen)
    (hroute : LeadsBack pairs source route) :
    (∃ found ∈ done ++ queue, found.head? = route.head? ∧ UpTo pairs found route) ∨
      ∃ waiting ∈ queue, ∃ after before, route = after ++ before ∧ after ≠ [] ∧
        UpTo pairs waiting before := by
  induction route with
  | nil => exact absurd rfl hroute.ne_nil
  | cons c rest ih =>
      rcases rest with _ | ⟨a, rest⟩
      · obtain rfl : c = source := Option.some.inj hroute.getLast?
        exact Or.inl ⟨[c], h.start, rfl, Or.inl rfl⟩
      · obtain ⟨hstep, hrest⟩ := leadsBack_cons_cons.mp hroute
        rcases ih hrest with ⟨found, hfound, hhead, hupTo⟩ |
            ⟨waiting, hwaiting, after, before, heq, -, hupTo⟩
        · rcases List.mem_append.mp hfound with hdone | hqueue
          · -- the route to the convention before this one was extended
            obtain ⟨earlier, rfl⟩ : ∃ earlier, found = a :: earlier := List.head?_eq_some_iff.mp hhead
            obtain ⟨next, hnext, hhead', hupTo'⟩ := h.extended a earlier hdone c hstep
            exact Or.inl ⟨next, hnext, hhead',
              hupTo'.trans (hupTo.cons (List.cons_ne_nil _ _) (List.cons_ne_nil _ _) c)⟩
          · exact Or.inr ⟨found, hqueue, [c], a :: rest, rfl, List.cons_ne_nil _ _, hupTo⟩
        · exact Or.inr ⟨waiting, hwaiting, c :: after, before, congrArg (c :: ·) heq,
            List.cons_ne_nil _ _, hupTo⟩

/-- The route that is found first to a convention comes before all others that lead there. -/
theorem upTo_of_unseen (h : IsBreadthFirst pairs source done ((current :: earlier) :: queue) seen)
    (htarget : target ∉ seen) (hroute : LeadsBack pairs source route)
    (hhead : route.head? = some target) :
    UpTo pairs (target :: current :: earlier) route := by
  rcases h.covers hroute with ⟨found, hfound, hhead', -⟩ |
      ⟨waiting, hwaiting, after, before, rfl, hafter, hupTo⟩
  · -- the convention would have been seen
    rw [hhead, List.head?_eq_some_iff] at hhead'
    obtain ⟨rest, rfl⟩ := hhead'
    exact absurd (h.subset_seen _ hfound List.mem_cons_self) htarget
  · have hfirst : UpTo pairs (current :: earlier) waiting := by
      rcases List.mem_cons.mp hwaiting with rfl | hwaiting
      · exact Or.inl rfl
      · exact Or.inr ((List.pairwise_cons.mp (List.pairwise_append.mp h.ordered).2.1).1 _ hwaiting)
    have hbefore := hfirst.trans hupTo
    have hlen := hbefore.length_le
    have hne : before ≠ [] := by
      rintro rfl
      exact absurd hlen (Nat.not_succ_le_zero _)
    rcases after with _ | ⟨c, _ | ⟨d, after⟩⟩
    · exact absurd rfl hafter
    · obtain rfl : c = target := Option.some.inj hhead
      exact hbefore.cons (List.cons_ne_nil _ _) hne c
    · -- two hops or more are left, so the route is longer
      refine Or.inr (rank_lt_rank.mpr (Or.inl ?_))
      simp only [List.length_cons, List.length_append] at hlen ⊢
      omega

end IsBreadthFirst

/-- The route that a search ends with, if there is one, is the first of all routes to what it
searches. -/
theorem Finds.first {r : Option Route} (h : Finds pairs target queue seen r)
    (hsearch : IsBreadthFirst pairs source done queue seen) (htarget : target ∉ seen) :
    ∀ route ∈ r, LeadsBack pairs source route ∧ route.head? = some target ∧ route.Nodup ∧
      ∀ other, LeadsBack pairs source other → other.head? = some target →
        UpTo pairs route other := by
  induction h generalizing done with
  | nothing seen => exact fun _ h => nomatch h
  | @found current earlier queue seen hfound =>
      rintro route ⟨⟩
      have hcurrent : current :: earlier ∈ done ++ (current :: earlier) :: queue :=
        List.mem_append_right _ List.mem_cons_self
      refine ⟨?_, rfl, ?_, fun other hother hhead => ?_⟩
      · exact leadsBack_cons_cons.mpr
          ⟨((mem_unseen _ _ _ _).mp hfound).1, hsearch.leadsBack _ hcurrent⟩
      · exact List.nodup_cons.mpr
          ⟨fun hmem => htarget (hsearch.subset_seen _ hcurrent hmem), hsearch.nodup _ hcurrent⟩
      · exact hsearch.upTo_of_unseen htarget hother hhead
  | extend hnew _ ih =>
      refine ih hsearch.extend ?_
      rw [List.mem_append, not_or]
      exact ⟨htarget, hnew⟩

/-- A chain is the first of the shortest ones between two conventions: chains of one length are
compared hop by hop, by the registration order of the conversions that start where they part. -/
structure IsFirst (pairs : List (Convention × Convention)) (source target : Convention)
    (path : List Convention) : Prop where
  links : Links pairs source target path
  nodup : path.Nodup
  length_le : ∀ chain, Links pairs source target chain → path.length ≤ chain.length
  positions_lt : ∀ chain, Links pairs source target chain → chain.length = path.length →
    chain ≠ path → positions pairs path < positions pairs chain

/-- A route before all others is the first of the shortest chains. -/
theorem isFirst_reverse (hroute : LeadsBack pairs source route)
    (hhead : route.head? = some target) (hnodup : route.Nodup)
    (hfirst : ∀ other, LeadsBack pairs source other → other.head? = some target →
      UpTo pairs route other) :
    IsFirst pairs source target route.reverse := by
  -- a chain is the route that it is read from the other end
  have hchain : ∀ chain, Links pairs source target chain →
      UpTo pairs route chain.reverse := by
    intro chain h
    rw [← List.reverse_reverse chain, links_reverse_iff] at h
    exact hfirst _ h.1 h.2
  refine ⟨links_reverse_iff.mpr ⟨hroute, hhead⟩, List.nodup_reverse.mpr hnodup,
    fun chain h => ?_, fun chain h hlen hne => ?_⟩
  · have hle := (hchain chain h).length_le
    rwa [List.length_reverse] at hle ⊢
  · rcases hchain chain h with rfl | hlt
    · exact absurd (List.reverse_reverse chain).symm hne
    · rw [List.length_reverse] at hlen
      rcases rank_lt_rank.mp hlt with hlt | ⟨-, hlt⟩
      · rw [List.length_reverse, hlen] at hlt
        exact absurd hlt (lt_irrefl _)
      · rwa [List.reverse_reverse] at hlt

/-- The search for a chain ends, also without a bound on its steps and on the way back. There is no
chain just if the conventions are one or no registered conversions lead from the one to the other; and
a chain is the first of the shortest, however the conversions go in circles. -/
theorem path_isFirst {conventions : List Convention} {conversions : Conversions}
    (hfreeze : freeze conventions pairs = .ok conversions) (source target : Convention) :
    (source ≠ target → ComesTo conversions source target (conversions.path source target)) ∧
    (conversions.path source target = none ↔
      source = target ∨ ¬ ∃ chain, Links pairs source target chain) ∧
    ∀ path, conversions.path source target = some path → IsFirst pairs source target path := by
  have hfirst : ∀ path, conversions.path source target = some path →
      IsFirst pairs source target path := by
    intro path hpath
    have hne : source ≠ target := by
      rintro rfl
      rw [Conversions.path, if_pos rfl] at hpath
      cases hpath
    obtain ⟨r, hsearch, hr⟩ := exists_finds_path (successors_freeze hfreeze) hne
    rw [hpath] at hr
    obtain ⟨route, rfl, rfl⟩ := Option.map_eq_some_iff.mp hr.symm
    obtain ⟨hroute, hhead, hnodup, hupTo⟩ := hsearch.first (.init pairs source)
      (fun hmem => hne (List.mem_singleton.mp hmem).symm) route rfl
    exact isFirst_reverse hroute hhead hnodup hupTo
  refine ⟨fun hne => comesTo_path conversions hne, ⟨fun hnone => ?_, fun hnone => ?_⟩, hfirst⟩
  · by_cases heq : source = target
    · exact Or.inl heq
    · refine Or.inr fun hchain => ?_
      have hleads : Leads conversions source target :=
        (exists_links_iff.mp hchain).lift id fun a b hab => (mem_freeze hfreeze).mpr hab
      have hsome := isSome_path heq hleads
      rw [hnone] at hsome
      cases hsome
  · rcases hnone with rfl | hnone
    · exact if_pos rfl
    · rcases hpath : conversions.path source target with _ | path
      · rfl
      · exact absurd ⟨path, (hfirst path hpath).links⟩ hnone

/-- Two ways of two hops, from one of which a circle can be entered. -/
def roundabout : List (Convention × Convention) :=
  [(.iterator, .compiled), (.federated, .compiledRecord), (.federated, .iterator),
    (.compiled, .iterator), (.compiledRecord, .compiled)]

/-- Of the two ways the one whose first hop was registered before that of the other is taken, and
nothing leads back. -/
theorem path_isFirst_roundabout : ∃ conversions,
    freeze Convention.builtin roundabout = .ok conversions ∧
      conversions.path .federated .compiled = some [.federated, .compiledRecord, .compiled] ∧
      IsFirst roundabout .federated .compiled [.federated, .compiledRecord, .compiled] ∧
      Links roundabout .federated .compiled [.federated, .iterator, .compiled] ∧
      ¬ ∃ chain, Links roundabout .compiled .federated chain := by
  have hfreeze : freeze Convention.builtin roundabout = .ok
      { conventions := Convention.builtin
        byName := Convention.builtin.foldl (fun names c => names.insert c.name c) []
        edges := roundabout.foldl addEdge [] } := rfl
  obtain ⟨-, -, hfirst⟩ := path_isFirst hfreeze .federated .compiled
  obtain ⟨-, hnone, -⟩ := path_isFirst hfreeze .compiled .federated
  exact ⟨_, hfreeze, by decide, hfirst _ (by decide), ⟨rfl, rfl, by decide⟩,
    (hnone.mp (by decide)).resolve_left (by decide)⟩

end Conversions

end QueryPlanner
