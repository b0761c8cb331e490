/-
# What iterations are spent on

Rules are fired and converters are inserted one by one, and each of these takes an iteration out of
the budget first. So whatever is new in a memo was paid for, the budget is never overdrawn, and a
round of the search that is not the last one has brought its end nearer.

* `Spends` : the iterations between two states of a search;
* `isFrugal_fireAll`, `isFrugal_convertAll` : the two passes pay for what they do;
* `exists_loop_expand` : the bound on the number of rounds is never reached;
* `keeps_budget_optimize` : a search stays within its budget, also after its last round.
-/
import QueryPlanner.Proofs.Loops
import QueryPlanner.Proofs.Search.Invariants
import QueryPlanner.Proofs.Search.Pricing

namespace QueryPlanner

namespace Search

variable {ν : Type} {budget : Budget} {s t u : Search ν}

/-! ## Frugal steps -/

/-- From one state of a search to another, iterations were only spent, and not beyond the budget;
and without any, no member is new and no groups were merged. -/
structure Spends (budget : Budget) (s t : Search ν) : Prop where
  le : s.iterations ≤ t.iterations
  within : s.iterations ≤ budget.iterations → t.iterations ≤ budget.iterations
  idle : t.iterations = s.iterations →
    t.memo.memberCount = s.memo.memberCount ∧ t.memo.merges = s.memo.merges

theorem Spends.refl (budget : Budget) (s : Search ν) : Spends budget s s :=
  ⟨Nat.le_refl _, id, fun _ => ⟨rfl, rfl⟩⟩

theorem Spends.trans (h : Spends budget s t) (h' : Spends budget t u) : Spends budget s u where
  le := h.le.trans h'.le
  within hs := h'.within (h.within hs)
  idle heq := by
    have hts : t.iterations = s.iterations := Nat.le_antisymm (h'.le.trans_eq heq) h.le
    obtain ⟨hmembers, hmerges⟩ := h.idle hts
    obtain ⟨hmembers', hmerges'⟩ := h'.idle (heq.trans hts.symm)
    exact ⟨hmembers'.trans hmembers, hmerges'.trans hmerges⟩

/-- A step that pays for what it does, and that says no only when the budget is spent. -/
def IsFrugal (budget : Budget) (x : Step ν Bool) : Prop :=
  ∀ s, Spends budget s (x.run.run s).2 ∧
    ∀ t, Returns x s false t → budget.iterations ≤ t.iterations

theorem isFrugal_pure (budget : Budget) : IsFrugal budget (pure true : Step ν Bool) :=
  fun s => ⟨Spends.refl budget s, fun _ h => nomatch (returns_pure.mp h).1⟩

theorem isFrugal_memoNow {f : Memo ν → Step ν Bool} (hf : ∀ memo, IsFrugal budget (f memo)) :
    IsFrugal budget (memoNow >>= f) := fun s => hf s.memo s

theorem isFrugal_get {f : Search ν → Step ν Bool} (hf : ∀ s, IsFrugal budget (f s)) :
    IsFrugal budget (get >>= f) := fun s => hf s s

/-- A walk along a list that stops where a step says no is frugal if its steps are. -/
theorem isFrugal_allM {α : Type} {f : α → Step ν Bool} {as : List α}
    (hf : ∀ a ∈ as, IsFrugal budget (f a)) : IsFrugal budget (as.allM f) := by
  induction as with
  | nil => exact isFrugal_pure budget
  | cons a rest ih =>
      obtain ⟨ha, hrest⟩ := List.forall_mem_cons.mp hf
      intro s
      obtain ⟨hfirst, hno⟩ := ha s
      unfold Returns
      rw [List.allM, run_bind]
      rcases hx : (f a).run.run s with ⟨e | _ | _, u⟩
      · rw [hx] at hfirst
        exact ⟨hfirst, nofun⟩
      · rw [hx] at hfirst
        refine ⟨hfirst, fun t h => ?_⟩
        cases h
        exact hno u hx
      · rw [hx] at hfirst
        obtain ⟨hmore, hno'⟩ := ih hrest u
        exact ⟨hfirst.trans hmore, hno'⟩

/-- What follows when an iteration was paid may do anything but pay more or say no. -/
theorem isFrugal_spend {x : Step ν Bool} (hx : ∀ n, Keeps (fun s => s.iterations = n) x)
    (hyes : ∀ s t, ¬ Returns x s false t) :
    IsFrugal budget (do if !(← spend budget) then return false else x) := by
  intro s
  by_cases hle : budget.iterations ≤ s.iterations
  · have hrun : (do if !(← spend budget) then return false else x : Step ν Bool).run.run s =
        (.ok false, { s with cutShort := true }) := by
      have hspend : (spend budget : Step ν Bool).run.run s =
          (.ok false, { s with cutShort := true }) := by
        show ((if _ then _ else _ : Step ν Bool)).run.run s = _
        rw [if_pos hle]
        rfl
      exact run_bind_of_ok hspend _
    unfold Returns
    rw [hrun]
    refine ⟨⟨Nat.le_refl _, id, fun _ => ⟨rfl, rfl⟩⟩, fun t h => ?_⟩
    cases h
    exact hle
  · have hrun : (do if !(← spend budget) then return false else x : Step ν Bool).run.run s =
        x.run.run { s with iterations := s.iterations + 1 } :=
      run_bind_of_ok (returns_spend_true (Nat.lt_of_not_le hle)) _
    unfold Returns
    rw [hrun]
    have hmore := hx (s.iterations + 1) { s with iterations := s.iterations + 1 } rfl
    refine ⟨⟨?_, fun _ => ?_, fun heq => ?_⟩, fun t h => absurd h (hyes _ t)⟩
    · rw [hmore]
      exact Nat.le_succ _
    · rw [hmore]
      exact Nat.lt_of_not_le hle
    · rw [hmore] at heq
      exact absurd heq (Nat.succ_ne_self _)

/-! ## The two passes -/

variable {planner : Planner ν}

/-- Nothing but spending changes the number of iterations. -/
theorem keeps_iterations_edit {α : Type} (n : Nat) (change : Memo.Edit ν α) :
    Keeps (fun s => s.iterations = n) (edit change) := fun _ h => h

theorem isFrugal_fire (planner : Planner ν) (rule : Rule ν) (m : MemberId) :
    IsFrugal planner.budget (fire planner rule m) := by
  refine isFrugal_memoNow fun memo => ?_
  split
  · exact isFrugal_pure _
  · split
    · exact isFrugal_pure _
    · refine isFrugal_spend (fun n => ?_) fun s t h => ?_
      · refine Keeps.bind (fun _ hs => hs) fun _ => ?_
        refine (keeps_forIn (fun proposal _ _ => ?_) _).bind fun _ => keeps_pure true
        exact (keeps_iterations_edit n _).bind fun _ => keeps_pure _
      · obtain ⟨_, _, -, h⟩ := returns_bind.mp h
        obtain ⟨_, _, -, h⟩ := returns_bind.mp h
        exact nomatch (returns_pure.mp h).1

theorem isFrugal_fireGroup (planner : Planner ν) (g : GroupId) :
    IsFrugal planner.budget (fireGroup planner g) :=
  isFrugal_memoNow fun _ => isFrugal_allM fun m _ => isFrugal_allM fun rule _ =>
    isFrugal_fire planner rule m

theorem isFrugal_insertHop (planner : Planner ν) (g : GroupId) (hop : Convention × Convention) :
    IsFrugal planner.budget (insertHop planner true g hop) := by
  refine isFrugal_spend (fun n => ?_) fun s t h => ?_
  · exact (keeps_iterations_edit n _).bind fun _ => keeps_pure true
  · obtain ⟨_, _, -, h⟩ := returns_bind.mp h
    exact nomatch (returns_pure.mp h).1

/-- A step that is followed by a note, unless it says no, is as frugal as it was. -/
theorem IsFrugal.andMark {x : Step ν Bool} (hx : IsFrugal budget x) (g : GroupId)
    (source target : Convention) :
    IsFrugal budget (do
      if !(← x) then return false
      markAttempted g source target
      return true) := by
  intro s
  obtain ⟨hspends, hno⟩ := hx s
  have hmark : ∀ t : Search ν, Spends budget t { t with attempted := (g, source, target) :: t.attempted } :=
    fun t => ⟨Nat.le_refl _, id, fun _ => ⟨rfl, rfl⟩⟩
  unfold Returns
  rw [run_bind]
  rcases hrun : x.run.run s with ⟨e | _ | _, t⟩
  · rw [hrun] at hspends
    exact ⟨hspends, fun _ h => nomatch h⟩
  · rw [hrun] at hspends
    refine ⟨hspends, fun u h => ?_⟩
    cases h
    exact hno t hrun
  · rw [hrun] at hspends
    exact ⟨hspends.trans (hmark t), fun _ h => nomatch h⟩

theorem isFrugal_convert (planner : Planner ν) (g : GroupId) (source target : Convention) :
    IsFrugal planner.budget (convert planner true g source target) := by
  refine isFrugal_get fun s => ?_
  split
  · exact isFrugal_pure _
  · split
    · exact (isFrugal_pure planner.budget).andMark g source target
    · exact (isFrugal_allM fun hop _ => isFrugal_insertHop planner g hop).andMark g source target

theorem isFrugal_convertGroup (planner : Planner ν) (g : GroupId) :
    IsFrugal planner.budget (convertGroup planner true g) :=
  isFrugal_memoNow fun memo => isFrugal_allM fun target _ => isFrugal_allM fun source _ =>
    isFrugal_convert planner (memo.leader g) source target

/-- What a walk over the groups has changed was paid for. -/
theorem spends_of_walk {f : GroupId → Step ν Bool} (hf : ∀ g, IsFrugal budget (f g))
    {changed : Bool → Memo ν → Bool} (groups : List GroupId) :
    ∀ s, Spends budget s ((do
      let finished ← groups.allM f
      let after ← memoNow
      pure (changed finished after) : Step ν Bool).run.run s).2 := by
  intro s
  obtain ⟨hspends, -⟩ := isFrugal_allM (fun g _ => hf g) s
  rw [run_bind]
  rcases hrun : (groups.allM f).run.run s with ⟨e | finished, t⟩
  · rw [hrun] at hspends
    exact hspends
  · rw [hrun] at hspends
    exact hspends

theorem spends_fireAll (planner : Planner ν) (s : Search ν) :
    Spends planner.budget s ((fireAll planner).run.run s).2 :=
  spends_of_walk (isFrugal_fireGroup planner) s.memo.liveGroups s

theorem spends_convertAll (planner : Planner ν) (s : Search ν) :
    Spends planner.budget s ((convertAll planner true).run.run s).2 :=
  spends_of_walk (isFrugal_convertGroup planner) s.memo.liveGroups s

/-- A pass over the groups that is not the last one has spent an iteration. -/
theorem lt_of_walk {f : GroupId → Step ν Bool} (hf : ∀ g, IsFrugal budget (f g))
    {groups : List GroupId} {finished : Bool} (h : Returns (groups.allM f) s finished t)
    (hs : s.iterations < budget.iterations)
    (hchanged : finished = false ∨ s.memo.memberCount < t.memo.memberCount ∨
      s.memo.merges < t.memo.merges) : s.iterations < t.iterations := by
  have hall : IsFrugal budget (groups.allM f) := isFrugal_allM fun g _ => hf g
  obtain ⟨hspends, hno⟩ := hall s
  rw [show (groups.allM f).run.run s = _ from h] at hspends
  rcases hchanged with rfl | hnew
  · exact Nat.lt_of_lt_of_le hs (hno t h)
  · refine Nat.lt_of_le_of_ne hspends.le fun heq => ?_
    obtain ⟨hmembers, hmerges⟩ := hspends.idle heq.symm
    rcases hnew with hlt | hlt
    · exact absurd hmembers.symm (Nat.ne_of_lt hlt)
    · exact absurd hmerges.symm (Nat.ne_of_lt hlt)

theorem lt_of_returns_fireAll (h : Returns (fireAll planner) s true t)
    (hs : s.iterations < planner.budget.iterations) : s.iterations < t.iterations := by
  obtain ⟨before, _, hbefore, hrest⟩ := returns_bind.mp h
  obtain ⟨rfl, rfl⟩ := returns_memoNow.mp hbefore
  obtain ⟨finished, u, hwalk, hend⟩ := returns_bind.mp hrest
  obtain ⟨after, v, hafter, hpure⟩ := returns_bind.mp hend
  obtain ⟨rfl, rfl⟩ := returns_memoNow.mp hafter
  obtain ⟨hb, rfl⟩ := returns_pure.mp hpure
  refine lt_of_walk (isFrugal_fireGroup planner) hwalk hs ?_
  simpa [or_assoc] using hb.symm

theorem lt_of_returns_convertAll (h : Returns (convertAll planner true) s true t)
    (hs : s.iterations < planner.budget.iterations) : s.iterations < t.iterations := by
  obtain ⟨before, _, hbefore, hrest⟩ := returns_bind.mp h
  obtain ⟨rfl, rfl⟩ := returns_memoNow.mp hbefore
  obtain ⟨finished, u, hwalk, hend⟩ := returns_bind.mp hrest
  obtain ⟨after, v, hafter, hpure⟩ := returns_bind.mp hend
  obtain ⟨rfl, rfl⟩ := returns_memoNow.mp hafter
  obtain ⟨hb, rfl⟩ := returns_pure.mp hpure
  refine lt_of_walk (isFrugal_convertGroup planner) hwalk hs ?_
  rcases Bool.or_eq_true_iff.mp hb.symm with hcut | hnew
  · exact Or.inl (by simpa using hcut)
  · exact Or.inr (Or.inl (of_decide_eq_true hnew))

/-- Without a bound, converters cost no iterations. -/
theorem keeps_iterations_insertHop (planner : Planner ν) (g : GroupId) (hop : Convention × Convention)
    (n : Nat) : Keeps (fun s => s.iterations = n) (insertHop planner false g hop) :=
  (keeps_iterations_edit n _).bind fun _ => keeps_pure true

theorem keeps_iterations_convertAll (planner : Planner ν) (n : Nat) :
    Keeps (fun s => s.iterations = n) (convertAll planner false) := by
  have hmark : ∀ g source target, Keeps (fun s : Search ν => s.iterations = n)
      (markAttempted g source target) := fun _ _ _ => keeps_modify fun _ hs => hs
  have hconvert : ∀ g source target, Keeps (fun s : Search ν => s.iterations = n)
      (convert planner false g source target) := by
    intro g source target
    refine keeps_get.bind fun s => ?_
    split
    · exact keeps_pure true
    · split
      · exact (hmark _ _ _).bind fun _ => keeps_pure true
      · refine (keeps_allM fun hop _ => keeps_iterations_insertHop planner g hop n).bind fun goesOn => ?_
        split
        · exact keeps_pure false
        · exact (hmark _ _ _).bind fun _ => keeps_pure true
  refine Keeps.bind (fun _ hs => hs) fun before => ?_
  refine (keeps_allM fun g _ => ?_).bind fun _ => Keeps.bind (fun _ hs => hs) fun _ => keeps_pure _
  exact Keeps.bind (fun _ hs => hs) fun memo => keeps_allM fun target _ =>
    keeps_allM fun source _ => hconvert _ _ _

/-! ## Rounds -/

variable [Quantity ν] {root : GroupId} {goal : Goal ν}

theorem keeps_iterations_findWinners (planner : Planner ν) (n : Nat) :
    Keeps (fun s => s.iterations = n) (findWinners planner) :=
  keeps_findWinners (fun _ _ _ _ _ _ _ hs => hs) fun _ _ hs => hs

theorem keeps_iterations_meetsCeiling (planner : Planner ν) (root : GroupId) (goal : Goal ν) (n : Nat) :
    Keeps (fun s => s.iterations = n) (meetsCeiling planner root goal) := by
  unfold meetsCeiling
  split
  · exact keeps_pure false
  · refine (keeps_iterations_findWinners planner n).bind fun _ => ?_
    refine Keeps.bind (fun _ hs => hs) fun memo => ?_
    split
    · exact keeps_pure false
    · exact keeps_pure _

/-- A round of the search: it may be the last one because the budget has run out, because the goal is
met cheaply enough, or because nothing changed. -/
def round (planner : Planner ν) (root : GroupId) (goal : Goal ν) : Step ν (Option Bool) := do
  if isExhausted planner.budget (← get) then return some true
  if ← meetsCeiling planner root goal then return some false
  let fired ← fireAll planner
  let converted ← convertAll planner true
  if fired || converted then return none else return some false

/-- Expanding the memo is repeating rounds. -/
theorem expand_eq_repeatUpTo (planner : Planner ν) (root : GroupId) (goal : Goal ν) (fuel : Nat) :
    expand planner root goal fuel = repeatUpTo (round planner root goal) (pure true) fuel := by
  induction fuel with
  | zero => rfl
  | succ fuel ih =>
      unfold expand repeatUpTo round
      rw [ih, bind_assoc]
      congr 1
      funext s
      split
      · rfl
      · rw [bind_assoc]
        congr 1
        funext met
        cases met with
        | true => rfl
        | false =>
            simp only [Bool.false_eq_true, if_false, bind_assoc]
            congr 1
            funext fired
            congr 1
            funext converted
            split
            · rfl
            · rfl

/-- A round that starts another one has spent an iteration. -/
theorem lt_of_returns_round (h : Returns (round planner root goal) s none t) :
    s.iterations < planner.budget.iterations ∧ s.iterations < t.iterations := by
  unfold round at h
  obtain ⟨_, _, hget, hround⟩ := returns_bind.mp h
  obtain ⟨rfl, rfl⟩ := returns_get.mp hget
  split at hround
  · exact nomatch (returns_pure.mp hround).1
  · next hleft =>
      simp only [isExhausted, Bool.or_eq_true, decide_eq_true_eq, not_or, Nat.not_le] at hleft
      have hs := hleft.1.2
      obtain ⟨met, u, hmet, hpasses⟩ := returns_bind.mp hround
      have hu := (keeps_iterations_meetsCeiling planner root goal _).of_returns hmet rfl
      cases met with
      | true => exact nomatch (returns_pure.mp hpasses).1
      | false =>
          obtain ⟨fired, v, hfire, hmore⟩ := returns_bind.mp hpasses
          obtain ⟨converted, w, hconvert, hend⟩ := returns_bind.mp hmore
          have hv := spends_fireAll planner u
          rw [show (fireAll planner).run.run u = _ from hfire] at hv
          have hw := spends_convertAll planner v
          rw [show (convertAll planner true).run.run v = _ from hconvert] at hw
          refine ⟨hs, ?_⟩
          split at hend
          · next hchanged =>
              obtain ⟨-, rfl⟩ := returns_pure.mp hend
              rw [← hu] at hs ⊢
              rcases Bool.or_eq_true_iff.mp hchanged with rfl | rfl
              · exact Nat.lt_of_lt_of_le (lt_of_returns_fireAll hfire hs) hw.le
              · -- where the rules have spent the budget, an iteration was spent already
                rcases Nat.lt_or_ge v.iterations planner.budget.iterations with hlt | hge
                · exact Nat.lt_of_le_of_lt hv.le (lt_of_returns_convertAll hconvert hlt)
                · exact Nat.lt_of_lt_of_le (Nat.lt_of_lt_of_le hs hge) hw.le
          · exact nomatch (returns_pure.mp hend).1

/-- Rounds come to an end, and expanding the memo does what they do. -/
theorem exists_loop_expand (planner : Planner ν) (root : GroupId) (goal : Goal ν) (s : Search ν) :
    ∃ r t, Loop (round planner root goal) s r t ∧
      (expand planner root goal (planner.budget.iterations - s.iterations + 1)).run.run s =
        (r, t) := by
  rw [expand_eq_repeatUpTo]
  refine exists_loop (I := fun _ => True)
    (N := fun s : Search ν => planner.budget.iterations - s.iterations)
    (fun s t _ h => ?_) trivial (Nat.lt_succ_self _)
  obtain ⟨hs, hlt⟩ := lt_of_returns_round h
  exact ⟨trivial, Nat.sub_lt_sub_left hs hlt⟩

/-! ## Whole searches -/

omit [Quantity ν] in
/-- Iterations that do not change stay within a budget. -/
theorem keeps_le_of_keeps_iterations {α : Type} {x : Step ν α}
    (hx : ∀ n, Keeps (fun s => s.iterations = n) x) (limit : Nat) :
    Keeps (fun s => s.iterations ≤ limit) x := by
  intro s hs
  rwa [hx s.iterations s rfl]

/-- A round stays within the budget. -/
theorem keeps_budget_round (planner : Planner ν) (root : GroupId) (goal : Goal ν) :
    Keeps (fun s => s.iterations ≤ planner.budget.iterations) (round planner root goal) := by
  refine keeps_get.bind fun s => ?_
  split
  · exact keeps_pure _
  · refine (keeps_le_of_keeps_iterations
      (keeps_iterations_meetsCeiling planner root goal) _).bind fun met => ?_
    split
    · exact keeps_pure _
    · refine Keeps.bind (fun s hs => (spends_fireAll planner s).within hs) fun fired => ?_
      refine Keeps.bind (fun s hs => (spends_convertAll planner s).within hs) fun converted => ?_
      split
      · exact keeps_pure _
      · exact keeps_pure _

/-- Settling the goal costs no iterations. -/
theorem keeps_iterations_settleGoal (planner : Planner ν) (root : GroupId) (goal : Goal ν) (n : Nat) :
    Keeps (fun s => s.iterations = n) (settleGoal planner root goal) := by
  refine (keeps_iterations_findWinners planner n).bind fun _ => ?_
  refine Keeps.bind (fun _ hs => hs) fun memo => ?_
  split
  · exact keeps_pure _
  · refine (keeps_iterations_convertAll planner n).bind fun _ => ?_
    refine (keeps_iterations_findWinners planner n).bind fun _ => ?_
    exact Keeps.bind (fun _ hs => hs) fun _ => keeps_pure _

/-- A search stays within its budget, and its last pass over the conversions costs nothing. -/
theorem keeps_budget_optimize (planner : Planner ν) (root : GroupId) (goal : Goal ν) :
    Keeps (fun s => s.iterations ≤ planner.budget.iterations) (optimize planner root goal) := by
  refine Keeps.bind (fun _ hs => hs) fun _ => keeps_get.bind fun s => ?_
  refine Keeps.bind ?_ fun exhausted => ?_
  · rw [expand_eq_repeatUpTo]
    exact keeps_repeatUpTo (keeps_budget_round planner root goal) (keeps_pure true) _
  · refine (keeps_le_of_keeps_iterations (keeps_iterations_settleGoal planner root goal) _).bind
      fun settled => ?_
    split
    · split
      · exact keeps_get.bind fun _ => keeps_throw _
      · exact Keeps.bind (fun _ hs => hs) fun _ => keeps_throw _
    · exact Keeps.bind (fun _ hs => hs) fun memo => (keeps_lift _).bind fun _ => keeps_pure _

end Search

end QueryPlanner
