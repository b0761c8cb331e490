/-
# Loops that come to an end

A loop is repeated until a round of it fails or says what it ends with. Programs repeat it a
bounded number of times. Where every round that is not the last makes some number smaller, a bound
above that number makes no difference: the loop without any bound ends, and it ends with the same.

* `Loop` : a loop without a bound on its rounds;
* `repeatUpTo` : a loop with a bound;
* `exists_loop` : a loop whose rounds make a number smaller ends within that number of rounds;
* `loop_or_endless` : a loop whose rounds do so unless it is stuck ends within that number of rounds or
  never;
* `returns_forIn_descends` : a walk along a list that says whether anything changed makes a number
  smaller if it does.
-/
import Mathlib.Logic.Relation
import QueryPlanner.Proofs.Running

namespace QueryPlanner

variable {ε σ α β : Type}

/-- A loop without a bound on its rounds: it fails where a round fails, ends with what a round gives,
and starts another round where one gives nothing. -/
inductive Loop (round : ExceptT ε (StateM σ) (Option α)) : σ → Except ε α → σ → Prop
  | fail {s t : σ} {e : ε} (h : round.run.run s = (.error e, t)) : Loop round s (.error e) t
  | done {s t : σ} {a : α} (h : Returns round s (some a) t) : Loop round s (.ok a) t
  | again {s t u : σ} {r : Except ε α} (h : Returns round s none t) (hrest : Loop round t r u) :
      Loop round s r u

/-- Rounds that each start another one come from one state to another. -/
abbrev Comes (round : ExceptT ε (StateM σ) (Option α)) : σ → σ → Prop :=
  Relation.ReflTransGen fun s t => Returns round s none t

/-- A loop of at most so many rounds, and what to do when there were as many. -/
def repeatUpTo (round : ExceptT ε (StateM σ) (Option α)) (otherwise : ExceptT ε (StateM σ) α) :
    Nat → ExceptT ε (StateM σ) α
  | 0 => otherwise
  | rounds + 1 => do
      match ← round with
      | some a => pure a
      | none => repeatUpTo round otherwise rounds

section Ending

variable {round : ExceptT ε (StateM σ) (Option α)} {otherwise : ExceptT ε (StateM σ) α}
  {I P : σ → Prop} {N : σ → Nat} {s t u : σ}

/-- A loop comes to one end at most. -/
theorem Loop.unique {r r' : Except ε α} (h : Loop round s r t) (h' : Loop round s r' u) :
    r = r' ∧ t = u := by
  -- the rounds are the same, one after the other
  induction h with
  | fail hround =>
      rcases h' with hround' | hround' | ⟨hround', -⟩ <;> cases hround.symm.trans hround'
      exact ⟨rfl, rfl⟩
  | done hround =>
      rcases h' with hround' | hround' | ⟨hround', -⟩ <;> cases hround.symm.trans hround'
      exact ⟨rfl, rfl⟩
  | again hround _ ih =>
      rcases h' with hround' | hround' | ⟨hround', hrest'⟩ <;> cases hround.symm.trans hround'
      exact ih hrest'

/-- What every round keeps, the loop keeps. -/
theorem Loop.of_keeps {r : Except ε α} (h : Loop round s r t) (hround : Keeps P round) (hs : P s) :
    P t := by
  induction h with
  | fail h =>
      have ht := hround _ hs
      rw [h] at ht
      exact ht
  | done h => exact hround.of_returns h hs
  | again h _ ih => exact ih (hround.of_returns h hs)

/-- So does a bounded loop, if what it does in the end keeps it too. -/
theorem keeps_repeatUpTo (hround : Keeps P round) (hotherwise : Keeps P otherwise) (rounds : Nat) :
    Keeps P (repeatUpTo round otherwise rounds) := by
  induction rounds with
  | zero => exact hotherwise
  | succ rounds ih =>
      refine hround.bind fun r => ?_
      cases r with
      | some a => exact keeps_pure a
      | none => exact ih

/-- Where every round that starts another one makes a number smaller, the loop ends within that
number of rounds, whether these are counted or not. -/
theorem exists_loop (hround : ∀ s t, I s → Returns round s none t → I t ∧ N t < N s)
    {rounds : Nat} (hs : I s) (hrounds : N s < rounds) :
    ∃ r t, Loop round s r t ∧ (repeatUpTo round otherwise rounds).run.run s = (r, t) := by
  induction rounds generalizing s with
  | zero => exact absurd hrounds (Nat.not_lt_zero _)
  | succ rounds ih =>
      unfold repeatUpTo
      rcases hrun : round.run.run s with ⟨e | _ | a, t⟩
      · exact ⟨.error e, t, .fail hrun, run_bind_of_error hrun _⟩
      · obtain ⟨ht, hlt⟩ := hround s t hs hrun
        obtain ⟨r, u, hloop, hrest⟩ := ih ht (Nat.lt_of_lt_of_le hlt (Nat.le_of_lt_succ hrounds))
        exact ⟨r, u, .again hrun hloop, (run_bind_of_ok hrun _).trans hrest⟩
      · exact ⟨.ok a, t, .done hrun, run_bind_of_ok hrun _⟩

/-- A loop each round of which starts another one never ends. -/
theorem not_loop_of_endless (hround : ∀ s, I s → ∃ t, Returns round s none t ∧ I t) (hs : I s)
    (r : Except ε α) (u : σ) : ¬ Loop round s r u := by
  intro h
  induction h with
  | fail h =>
      obtain ⟨t, ht, -⟩ := hround _ hs
      cases h.symm.trans ht
  | done h =>
      obtain ⟨t, ht, -⟩ := hround _ hs
      cases h.symm.trans ht
  | again h _ ih =>
      obtain ⟨t, ht, hI⟩ := hround _ hs
      cases h.symm.trans ht
      exact ih hI

/-- Its rounds come to every bound. -/
theorem exists_run_repeatUpTo (hround : ∀ s, I s → ∃ t, Returns round s none t ∧ I t) (hs : I s)
    (rounds : Nat) : ∃ t, (repeatUpTo round otherwise rounds).run.run s = otherwise.run.run t := by
  induction rounds generalizing s with
  | zero => exact ⟨s, rfl⟩
  | succ rounds ih =>
      obtain ⟨t, ht, hI⟩ := hround s hs
      obtain ⟨u, hu⟩ := ih hI
      unfold repeatUpTo
      exact ⟨u, (run_bind_of_ok ht _).trans hu⟩

variable (otherwise) in
/-- Where every round that starts another one makes a number smaller, unless all that follow start
another one too, the loop ends within that number of rounds or never. -/
theorem loop_or_endless {Stuck : σ → Prop}
    (hstuck : ∀ s, Stuck s → ∃ t, Returns round s none t ∧ Stuck t)
    (hround : ∀ s t, Returns round s none t → Stuck s ∨ N t < N s) {rounds : Nat}
    (hrounds : N s < rounds) :
    (∃ r t, Loop round s r t ∧ (repeatUpTo round otherwise rounds).run.run s = (r, t)) ∨
      (∀ r t, ¬ Loop round s r t) ∧
        ∃ t, (repeatUpTo round otherwise rounds).run.run s = otherwise.run.run t := by
  by_cases hfree : ∀ t, Comes round s t → ¬ Stuck t
  · refine Or.inl (exists_loop (I := fun s => ∀ t, Comes round s t → ¬ Stuck t)
      (fun s t hs hst => ?_) hfree hrounds)
    refine ⟨fun u htu => hs u (.head hst htu), ?_⟩
    exact (hround s t hst).resolve_left (hs s .refl)
  · -- every round on the way to where it is stuck starts another one, and so do those that follow
    have hgoesOn : ∀ s, (∃ t, Comes round s t ∧ Stuck t) →
        ∃ t, Returns round s none t ∧ ∃ u, Comes round t u ∧ Stuck u := by
      rintro s ⟨t, hst, ht⟩
      rcases Relation.ReflTransGen.cases_head hst with rfl | ⟨u, hsu, hut⟩
      · obtain ⟨u, hsu, hu⟩ := hstuck s ht
        exact ⟨u, hsu, u, .refl, hu⟩
      · exact ⟨u, hsu, t, hut, ht⟩
    have hs : ∃ t, Comes round s t ∧ Stuck t := by
      simpa only [not_forall, not_not, exists_prop] using hfree
    exact Or.inr ⟨not_loop_of_endless hgoesOn hs, exists_run_repeatUpTo hgoesOn hs rounds⟩

/-- A walk along a list that collects whether anything changed: a number that no step makes larger,
and every step that changes something makes smaller, is smaller in the end if anything changed. -/
theorem returns_forIn_descends {as : List α}
    {body : α → Bool → ExceptT ε (StateM σ) (ForInStep Bool)}
    (hbody : ∀ a ∈ as, ∀ changed s r t, I s → Returns (body a changed) s r t →
      ∃ b, r = .yield b ∧ I t ∧ N t ≤ N s ∧ (b = true → changed = true ∨ N t < N s))
    {changed b : Bool} (hs : I s) (h : Returns (forIn as changed body) s b t) :
    I t ∧ N t ≤ N s ∧ (b = true → changed = true ∨ N t < N s) := by
  induction as generalizing changed s with
  | nil =>
      obtain ⟨rfl, rfl⟩ := returns_pure.mp h
      exact ⟨hs, Nat.le_refl _, Or.inl⟩
  | cons a rest ih =>
      rw [List.forIn_cons] at h
      obtain ⟨r, u, hr, h⟩ := returns_bind.mp h
      obtain ⟨next, rfl, hu, hle, hnext⟩ := hbody a List.mem_cons_self changed s r u hs hr
      obtain ⟨ht, hle', hb⟩ := ih (fun a ha => hbody a (List.mem_cons_of_mem _ ha)) hu h
      refine ⟨ht, Nat.le_trans hle' hle, fun htrue => ?_⟩
      rcases hb htrue with hnow | hlt
      · exact (hnext hnow).imp_right fun hlt => Nat.lt_of_le_of_lt hle' hlt
      · exact Or.inr (Nat.lt_of_lt_of_le hlt hle)

end Ending

end QueryPlanner
