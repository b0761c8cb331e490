/-
# Running steps that can fail

Searches, edits of the memo and running programs are steps of one shape: they return a
value or fail, and leave a state behind in any case.

* `run_bind` : a sequence runs its second part on what the first one left;
* `Returns` : a step returns a value and leaves a state;
* `returns_allM` : what a walk along a list leaves, if it goes on to the end;
* `Fails` : a step fails with an error, and `exists_of_fails_allM` : a walk fails where a step does;
* `Keeps` : a step leaves a property of the state true, whether it returns or fails;
* `Raises` : a step fails with errors of one kind only;
* `Obeys` : where a property holds, a step does both;
* `Mirrors` : two steps come to the same, as far as a view of the state shows.
-/
import Mathlib.Data.List.Forall2
import Mathlib.Tactic.Common

namespace QueryPlanner

variable {ε σ α β : Type}

/-! ## Runs -/

/-- A sequence runs its second part on the state that the first one left. -/
theorem run_bind (x : ExceptT ε (StateM σ) α) (f : α → ExceptT ε (StateM σ) β) (s : σ) :
    (x >>= f).run.run s =
      match x.run.run s with
      | (.ok a, t) => (f a).run.run t
      | (.error e, t) => (.error e, t) := by
  show (do let r ← x.run; (ExceptT.bindCont f r : StateM σ _)).run s = _
  rw [StateT.run_bind]
  rcases x.run.run s with ⟨_ | _, t⟩ <;> rfl

/-- A sequence whose first part returns runs on. -/
theorem run_bind_of_ok {x : ExceptT ε (StateM σ) α} {s t : σ} {a : α}
    (h : x.run.run s = (.ok a, t)) (f : α → ExceptT ε (StateM σ) β) :
    (x >>= f).run.run s = (f a).run.run t := by
  rw [run_bind, h]

/-- A sequence whose first part fails fails with it. -/
theorem run_bind_of_error {x : ExceptT ε (StateM σ) α} {s t : σ} {e : ε}
    (h : x.run.run s = (.error e, t)) (f : α → ExceptT ε (StateM σ) β) :
    (x >>= f).run.run s = (.error e, t) := by
  rw [run_bind, h]

/-- A sequence whose first part comes to the same in two states comes to the same. -/
theorem run_bind_congr {x : ExceptT ε (StateM σ) α} {s s' : σ} (h : x.run.run s = x.run.run s')
    (f : α → ExceptT ε (StateM σ) β) : (x >>= f).run.run s = (x >>= f).run.run s' := by
  rw [run_bind, run_bind, h]

/-- A sequence on an outcome that leaves the state alone. -/
theorem run_bind_of_pure {x : ExceptT ε (StateM σ) α} {s : σ} {r : Except ε α}
    (h : x.run.run s = (r, s)) {f : α → ExceptT ε (StateM σ) β} {g : α → Except ε β}
    (hf : ∀ a, r = .ok a → (f a).run.run s = (g a, s)) :
    (x >>= f).run.run s = (r >>= g, s) := by
  rw [run_bind, h]
  cases r with
  | error e => rfl
  | ok a => exact hf a rfl

/-- Returning a value leaves the state alone. -/
theorem run_pure (a : α) (s : σ) : (pure a : ExceptT ε (StateM σ) α).run.run s = (.ok a, s) := rfl

/-- An outcome that has nothing to do with the state leaves it alone. -/
theorem run_lift (r : Except ε α) (s : σ) :
    (liftM r : ExceptT ε (StateM σ) α).run.run s = (r, s) := rfl

/-! ## Walks along lists -/

section MapM

variable {f : α → Except ε β}

/-- A walk along a list fails only where a step of it fails. -/
theorem mapM_eq_error {as : List α} {e : ε} (h : as.mapM f = .error e) :
    ∃ a ∈ as, f a = .error e := by
  induction as with
  | nil => cases h
  | cons a rest ih =>
      rw [List.mapM_cons] at h
      rcases ha : f a with e' | b
      · rw [ha] at h
        cases h
        exact ⟨a, List.mem_cons_self, ha⟩
      · rw [ha] at h
        rcases hrest : rest.mapM f with e' | bs
        · rw [hrest] at h
          cases h
          obtain ⟨x, hx, hfx⟩ := ih hrest
          exact ⟨x, List.mem_cons_of_mem _ hx, hfx⟩
        · rw [hrest] at h
          cases h

/-- A walk along a list succeeds only with what every step gives. -/
theorem forall₂_of_mapM_eq_ok {as : List α} {bs : List β} (h : as.mapM f = .ok bs) :
    List.Forall₂ (fun a b => f a = .ok b) as bs := by
  induction as generalizing bs with
  | nil =>
      cases h
      exact List.Forall₂.nil
  | cons a rest ih =>
      rw [List.mapM_cons] at h
      rcases ha : f a with e | b
      · rw [ha] at h
        cases h
      · rw [ha] at h
        rcases hrest : rest.mapM f with e | rs
        · rw [hrest] at h
          cases h
        · rw [hrest] at h
          cases h
          exact List.Forall₂.cons ha (ih hrest)

/-- Of two lists that are related one by one, what is in the second one is related to something in
the first one. -/
theorem exists_mem_of_forall₂ {R : α → β → Prop} {as : List α} {bs : List β}
    (h : List.Forall₂ R as bs) {b : β} (hb : b ∈ bs) : ∃ a ∈ as, R a b := by
  induction h with
  | nil => exact absurd hb List.not_mem_nil
  | @cons a _ _ _ hab _ ih =>
      rcases List.mem_cons.mp hb with rfl | hb
      · exact ⟨a, List.mem_cons_self, hab⟩
      · obtain ⟨x, hx, hxb⟩ := ih hb
        exact ⟨x, List.mem_cons_of_mem a hx, hxb⟩

/-- What is related one by one to the same list in two ways is the same, if it is so for elements. -/
theorem eq_of_forall₂ {R S : α → β → Prop} (h : ∀ a b b', R a b → S a b' → b = b') {as : List α}
    {bs bs' : List β} (hbs : List.Forall₂ R as bs) (hbs' : List.Forall₂ S as bs') : bs = bs' := by
  induction hbs generalizing bs' with
  | nil => cases hbs' with | nil => rfl
  | cons hab _ ih =>
      cases hbs' with
      | cons hab' hrest' => rw [h _ _ _ hab hab', ih hrest']

/-- A walk along a list each step of which succeeds gives what its steps give. -/
theorem mapM_eq_ok_map {g : α → β} {as : List α} (h : ∀ a ∈ as, f a = .ok (g a)) :
    as.mapM f = .ok (as.map g) := by
  induction as with
  | nil => rfl
  | cons a rest ih =>
      obtain ⟨ha, hrest⟩ := List.forall_mem_cons.mp h
      rw [List.mapM_cons, ha, ih hrest]
      rfl

/-- A walk along a list succeeds with the values that its steps give, one for each. -/
theorem mapM_eq_ok_iff {as : List α} {bs : List β} :
    as.mapM f = .ok bs ↔ as.map f = bs.map .ok := by
  constructor
  · intro h
    rw [← List.forall₂_eq_eq_eq, List.forall₂_map_left_iff, List.forall₂_map_right_iff]
    exact forall₂_of_mapM_eq_ok h
  · intro h
    induction as generalizing bs with
    | nil =>
        cases List.map_eq_nil_iff.mp h.symm
        rfl
    | cons a rest ih =>
        obtain ⟨b, more, rfl, hb, hmore⟩ := List.map_eq_cons_iff.mp h.symm
        rw [List.mapM_cons, ← hb, ih hmore.symm]
        rfl

/-- A walk along a list succeeds only if every step does. -/
theorem exists_of_mapM_eq_ok {as : List α} {bs : List β} (h : as.mapM f = .ok bs) {a : α}
    (ha : a ∈ as) : ∃ b, f a = .ok b :=
  have ⟨b, _, hb⟩ := exists_mem_of_forall₂ (forall₂_of_mapM_eq_ok h).flip ha
  ⟨b, hb⟩

end MapM

/-! ## Returning -/

/-- A step returns `a` and leaves the state `t`. -/
def Returns (x : ExceptT ε (StateM σ) α) (s : σ) (a : α) (t : σ) : Prop :=
  x.run.run s = (.ok a, t)

/-- A sequence returns if its first part does and the second one on what that left. -/
theorem returns_bind {x : ExceptT ε (StateM σ) α} {f : α → ExceptT ε (StateM σ) β} {s u : σ}
    {b : β} : Returns (x >>= f) s b u ↔ ∃ a t, Returns x s a t ∧ Returns (f a) t b u := by
  unfold Returns
  rw [run_bind]
  constructor
  · intro h
    rcases hx : x.run.run s with ⟨_ | a, t⟩
    · rw [hx] at h
      cases h
    · rw [hx] at h
      exact ⟨a, t, rfl, h⟩
  · rintro ⟨a, t, hx, hf⟩
    rw [hx]
    exact hf

/-- A sequence whose parts return returns. -/
theorem Returns.bind {x : ExceptT ε (StateM σ) α} {f : α → ExceptT ε (StateM σ) β} {s t u : σ}
    {a : α} {b : β} (hx : Returns x s a t) (hf : Returns (f a) t b u) : Returns (x >>= f) s b u :=
  returns_bind.mpr ⟨a, t, hx, hf⟩

theorem returns_pure {a b : α} {s t : σ} :
    Returns (pure a : ExceptT ε (StateM σ) α) s b t ↔ b = a ∧ t = s := by
  unfold Returns
  rw [run_pure]
  constructor
  · intro h
    cases h
    exact ⟨rfl, rfl⟩
  · rintro ⟨rfl, rfl⟩
    rfl

theorem returns_get {r s t : σ} :
    Returns (get : ExceptT ε (StateM σ) σ) s r t ↔ r = s ∧ t = s := by
  constructor
  · intro h
    cases h
    exact ⟨rfl, rfl⟩
  · rintro ⟨rfl, rfl⟩
    rfl

theorem returns_modify {f : σ → σ} {s t : σ} {u : PUnit} :
    Returns (modify f : ExceptT ε (StateM σ) PUnit) s u t ↔ t = f s := by
  constructor
  · intro h
    cases h
    rfl
  · rintro rfl
    rfl

theorem returns_throw {e : ε} {s t : σ} {a : α} :
    Returns (throw e : ExceptT ε (StateM σ) α) s a t ↔ False :=
  ⟨fun h => (nomatch h), False.elim⟩

theorem returns_lift {r : Except ε α} {s t : σ} {a : α} :
    Returns (liftM r : ExceptT ε (StateM σ) α) s a t ↔ r = .ok a ∧ t = s := by
  unfold Returns
  rw [run_lift]
  constructor
  · intro h
    cases h
    exact ⟨rfl, rfl⟩
  · rintro ⟨rfl, rfl⟩
    rfl

theorem returns_ite {p : Prop} [Decidable p] {x y : ExceptT ε (StateM σ) α} {s t : σ} {a : α} :
    Returns (if p then x else y) s a t ↔ if p then Returns x s a t else Returns y s a t := by
  split
  · exact Iff.rfl
  · exact Iff.rfl

/-- A step of a known outcome returns it. -/
theorem returns_of_toOption {x : ExceptT ε (StateM σ) α} {s : σ} {a : α}
    (h : (x.run.run s).1.toOption = some a) : Returns x s a (x.run.run s).2 := by
  unfold Returns
  rcases hr : x.run.run s with ⟨_ | b, t⟩
  · rw [hr] at h
    cases h
  · rw [hr] at h
    cases h
    rfl

/-- A walk along a list that may stop early keeps what its steps keep. If it goes on to the end, it
leaves what every step established and the later ones kept. -/
theorem returns_allM {f : α → ExceptT ε (StateM σ) Bool} {I : σ → Prop} {Q : α → σ → Prop}
    {as : List α} (hf : ∀ a ∈ as, ∀ s b t, I s → Returns (f a) s b t →
      I t ∧ (b = true → Q a t) ∧ ∀ a', Q a' s → Q a' t)
    {s t : σ} {b : Bool} (hs : I s) (h : Returns (as.allM f) s b t) :
    I t ∧ (b = true → ∀ a ∈ as, Q a t) ∧ ∀ a', Q a' s → Q a' t := by
  induction as generalizing s with
  | nil =>
      obtain ⟨rfl, rfl⟩ := returns_pure.mp h
      exact ⟨hs, fun _ a ha => absurd ha List.not_mem_nil, fun _ hq => hq⟩
  | cons a rest ih =>
      obtain ⟨ha, hrest⟩ := List.forall_mem_cons.mp hf
      obtain ⟨goesOn, u, hfirst, h⟩ := returns_bind.mp h
      obtain ⟨hu, hqa, hkeep⟩ := ha s goesOn u hs hfirst
      cases goesOn with
      | false =>
          obtain ⟨rfl, rfl⟩ := returns_pure.mp h
          exact ⟨hu, fun hb => (Bool.false_ne_true hb).elim, hkeep⟩
      | true =>
          obtain ⟨ht, hall, hkeep'⟩ := ih hrest hu h
          refine ⟨ht, fun hb => ?_, fun a' hq => hkeep' a' (hkeep a' hq)⟩
          exact List.forall_mem_cons.mpr ⟨hkeep' a (hqa rfl), hall hb⟩

/-- A walk along a list none of whose steps stops goes on to the end. -/
theorem returns_allM_eq_true {f : α → ExceptT ε (StateM σ) Bool} {as : List α}
    (hf : ∀ a ∈ as, ∀ s b t, Returns (f a) s b t → b = true) {s t : σ} {b : Bool}
    (h : Returns (as.allM f) s b t) : b = true := by
  induction as generalizing s with
  | nil => exact (returns_pure.mp h).1
  | cons a rest ih =>
      obtain ⟨ha, hrest⟩ := List.forall_mem_cons.mp hf
      obtain ⟨goesOn, u, hfirst, h⟩ := returns_bind.mp h
      obtain rfl := ha s goesOn u hfirst
      exact ih hrest h

/-- A walk along a list none of whose steps fails or stops goes on to the end. -/
theorem exists_returns_allM {f : α → ExceptT ε (StateM σ) Bool} {I : σ → Prop} (as : List α)
    (hf : ∀ a ∈ as, ∀ s, I s → ∃ t, Returns (f a) s true t ∧ I t) {s : σ} (hs : I s) :
    ∃ t, Returns (as.allM f) s true t ∧ I t := by
  induction as generalizing s with
  | nil => exact ⟨s, returns_pure.mpr ⟨rfl, rfl⟩, hs⟩
  | cons a rest ih =>
      obtain ⟨ha, hrest⟩ := List.forall_mem_cons.mp hf
      obtain ⟨u, hfirst, hu⟩ := ha s hs
      obtain ⟨t, hmore, ht⟩ := ih hrest hu
      exact ⟨t, hfirst.bind hmore, ht⟩

/-- A loop that collects whether anything changed: if it says no, then nothing had changed
before, the state is what it was, and every step found its part as it should be. -/
theorem returns_forIn_changed {as : List α}
    {body : α → Bool → ExceptT ε (StateM σ) (ForInStep Bool)} {I : σ → Prop} {Q : α → σ → Prop}
    (hbody : ∀ a ∈ as, ∀ changed s r t, I s → Returns (body a changed) s r t →
      ∃ b, r = .yield b ∧ I t ∧ (b = false → changed = false ∧ t = s ∧ Q a s))
    {changed b : Bool} {s t : σ} (hs : I s) (h : Returns (forIn as changed body) s b t) :
    I t ∧ (b = false → changed = false ∧ t = s ∧ ∀ a ∈ as, Q a s) := by
  induction as generalizing changed s with
  | nil =>
      obtain ⟨rfl, rfl⟩ := returns_pure.mp h
      exact ⟨hs, fun hb => ⟨hb, rfl, fun a ha => absurd ha List.not_mem_nil⟩⟩
  | cons a rest ih =>
      rw [List.forIn_cons] at h
      obtain ⟨r, u, hr, h⟩ := returns_bind.mp h
      obtain ⟨next, rfl, hu, hnext⟩ := hbody a List.mem_cons_self changed s r u hs hr
      obtain ⟨ht, hb⟩ := ih (fun a ha => hbody a (List.mem_cons_of_mem _ ha)) hu h
      refine ⟨ht, fun hfalse => ?_⟩
      -- if the rest changed nothing and started unchanged, the first step changed nothing either
      obtain ⟨hnf, rfl, hall⟩ := hb hfalse
      obtain ⟨hcf, rfl, ha⟩ := hnext hnf
      exact ⟨hcf, rfl, List.forall_mem_cons.mpr ⟨ha, hall⟩⟩

/-! ## Failing -/

/-- A step fails with an error, whatever it leaves. -/
def Fails (x : ExceptT ε (StateM σ) α) (s : σ) (e : ε) : Prop := ∃ t, x.run.run s = (.error e, t)

section Fails

variable {s : σ} {e : ε} {x : ExceptT ε (StateM σ) α} {f : α → ExceptT ε (StateM σ) β}

theorem fails_iff : Fails x s e ↔ (x.run.run s).1 = .error e :=
  ⟨fun ⟨_, h⟩ => congrArg Prod.fst h, fun h => ⟨_, Prod.ext h rfl⟩⟩

/-- A step that returns does not fail. -/
theorem Returns.not_fails {a : α} (h : Returns x s a t) : ¬ Fails x s e := by
  rintro ⟨u, hu⟩
  rw [show x.run.run s = (.ok a, t) from h] at hu
  cases hu

/-- A sequence fails where its first part does. -/
theorem Fails.bind (h : Fails x s e) (f : α → ExceptT ε (StateM σ) β) : Fails (x >>= f) s e := by
  obtain ⟨t, ht⟩ := h
  exact ⟨t, run_bind_of_error ht f⟩

/-- A sequence fails where its second part does. -/
theorem Fails.of_returns {a : α} (hx : Returns x s a t) (h : Fails (f a) t e) :
    Fails (x >>= f) s e := by
  obtain ⟨u, hu⟩ := h
  exact ⟨u, (run_bind_of_ok hx f).trans hu⟩

/-- It fails nowhere else. -/
theorem fails_bind : Fails (x >>= f) s e ↔
    Fails x s e ∨ ∃ a t, Returns x s a t ∧ Fails (f a) t e := by
  constructor
  · rintro ⟨u, hu⟩
    rw [run_bind] at hu
    rcases hx : x.run.run s with ⟨e' | a, t⟩
    · rw [hx] at hu
      cases hu
      exact Or.inl ⟨_, hx⟩
    · rw [hx] at hu
      exact Or.inr ⟨a, t, hx, u, hu⟩
  · rintro (h | ⟨a, t, hx, h⟩)
    · exact h.bind f
    · exact .of_returns hx h

theorem not_fails_pure {a : α} : ¬ Fails (pure a : ExceptT ε (StateM σ) α) s e :=
  fun ⟨_, h⟩ => nomatch h

theorem not_fails_get : ¬ Fails (get : ExceptT ε (StateM σ) σ) s e := fun ⟨_, h⟩ => nomatch h

theorem not_fails_modify {f : σ → σ} :
    ¬ Fails (modify f : ExceptT ε (StateM σ) PUnit) s e := fun ⟨_, h⟩ => nomatch h

theorem fails_throw {e' : ε} : Fails (throw e' : ExceptT ε (StateM σ) α) s e ↔ e' = e :=
  fails_iff.trans ⟨fun h => Except.error.inj h, fun h => congrArg Except.error h⟩

theorem fails_lift {r : Except ε α} :
    Fails (liftM r : ExceptT ε (StateM σ) α) s e ↔ r = .error e := by
  rw [fails_iff, run_lift]

/-- A walk along a list fails at some step, in a state that the steps before it left. -/
theorem exists_of_fails_allM {f : α → ExceptT ε (StateM σ) Bool} {I : σ → Prop} {as : List α}
    (hf : ∀ a ∈ as, ∀ s b t, I s → Returns (f a) s b t → I t) (hs : I s)
    (h : Fails (as.allM f) s e) : ∃ a ∈ as, ∃ t, I t ∧ Fails (f a) t e := by
  induction as generalizing s with
  | nil => exact absurd h not_fails_pure
  | cons a rest ih =>
      obtain ⟨ha, hrest⟩ := List.forall_mem_cons.mp hf
      rcases fails_bind.mp h with hfirst | ⟨goesOn, t, hfirst, hmore⟩
      · exact ⟨a, List.mem_cons_self, s, hs, hfirst⟩
      · cases goesOn with
        | false => exact absurd hmore not_fails_pure
        | true =>
            obtain ⟨x, hx, u, hu, hfails⟩ := ih hrest (ha s true t hs hfirst) hmore
            exact ⟨x, List.mem_cons_of_mem a hx, u, hu, hfails⟩

/-- So does a loop that runs a step for each element of a list. -/
theorem exists_of_fails_forIn {f : α → ExceptT ε (StateM σ) PUnit} {I : σ → Prop} {as : List α}
    (hf : ∀ a ∈ as, ∀ s u t, I s → Returns (f a) s u t → I t) (hs : I s)
    (h : Fails (forIn as PUnit.unit fun a _ => do
      f a
      pure (ForInStep.yield PUnit.unit)) s e) : ∃ a ∈ as, ∃ t, I t ∧ Fails (f a) t e := by
  induction as generalizing s with
  | nil => exact absurd h not_fails_pure
  | cons a rest ih =>
      obtain ⟨ha, hrest⟩ := List.forall_mem_cons.mp hf
      rw [List.forIn_cons] at h
      rcases fails_bind.mp h with hfirst | ⟨next, t, hfirst, hmore⟩
      · rcases fails_bind.mp hfirst with hfails | ⟨_, _, -, hpure⟩
        · exact ⟨a, List.mem_cons_self, s, hs, hfails⟩
        · exact absurd hpure not_fails_pure
      · obtain ⟨u, v, hrun, hpure⟩ := returns_bind.mp hfirst
        obtain ⟨rfl, rfl⟩ := returns_pure.mp hpure
        obtain ⟨x, hx, w, hw, hfails⟩ := ih hrest (ha s u t hs hrun) hmore
        exact ⟨x, List.mem_cons_of_mem a hx, w, hw, hfails⟩

end Fails

/-! ## Keeping a property -/

/-- A step leaves a property of the state true, whether it returns or fails. -/
def Keeps (P : σ → Prop) (x : ExceptT ε (StateM σ) α) : Prop := ∀ s, P s → P (x.run.run s).2

section Keeps

variable {P : σ → Prop}

/-- A sequence keeps what both of its parts keep. -/
theorem Keeps.bind {x : ExceptT ε (StateM σ) α} {f : α → ExceptT ε (StateM σ) β}
    (hx : Keeps P x) (hf : ∀ a, Keeps P (f a)) : Keeps P (x >>= f) := by
  intro s hs
  have ht := hx s hs
  rw [run_bind]
  rcases hr : x.run.run s with ⟨e | a, t⟩
  · rw [hr] at ht
    exact ht
  · rw [hr] at ht
    exact hf a t ht

/-- What a step keeps holds of the state that it leaves when it returns. -/
theorem Keeps.of_returns {x : ExceptT ε (StateM σ) α} {a : α} {s t : σ} (hx : Keeps P x)
    (h : Returns x s a t) (hs : P s) : P t := by
  have ht := hx s hs
  rw [show x.run.run s = (.ok a, t) from h] at ht
  exact ht

theorem keeps_pure (a : α) : Keeps P (pure a : ExceptT ε (StateM σ) α) := fun _ hs => hs

theorem keeps_throw (e : ε) : Keeps P (throw e : ExceptT ε (StateM σ) α) := fun _ hs => hs

theorem keeps_lift (r : Except ε α) : Keeps P (liftM r : ExceptT ε (StateM σ) α) := fun _ hs => hs

theorem keeps_get : Keeps P (get : ExceptT ε (StateM σ) σ) := fun _ hs => hs

theorem keeps_modify {f : σ → σ} (hf : ∀ s, P s → P (f s)) :
    Keeps P (modify f : ExceptT ε (StateM σ) PUnit) := fun s hs => hf s hs

/-- What follows a look at the state may rely on the property of what it saw. -/
theorem keeps_get_bind {f : σ → ExceptT ε (StateM σ) α}
    (hf : ∀ s, P s → P ((f s).run.run s).2) : Keeps P (get >>= f) := fun s hs => hf s hs

/-- A walk along a list keeps what every step of it keeps. -/
theorem keeps_allM {f : α → ExceptT ε (StateM σ) Bool} {as : List α}
    (hf : ∀ a ∈ as, Keeps P (f a)) : Keeps P (as.allM f) := by
  induction as with
  | nil => exact keeps_pure true
  | cons a rest ih =>
      obtain ⟨ha, hrest⟩ := List.forall_mem_cons.mp hf
      refine ha.bind fun goesOn => ?_
      cases goesOn with
      | true => exact ih hrest
      | false => exact keeps_pure false

/-- A loop over a list keeps what its body keeps. -/
theorem keeps_forIn {f : α → β → ExceptT ε (StateM σ) (ForInStep β)} {as : List α}
    (hf : ∀ a ∈ as, ∀ b, Keeps P (f a b)) (b : β) : Keeps P (forIn as b f) := by
  induction as generalizing b with
  | nil => exact keeps_pure b
  | cons a rest ih =>
      obtain ⟨ha, hrest⟩ := List.forall_mem_cons.mp hf
      rw [List.forIn_cons]
      refine (ha b).bind fun next => ?_
      cases next with
      | done b => exact keeps_pure b
      | yield b => exact ih hrest b

end Keeps

/-! ## Errors -/

/-- A step fails with errors of one kind only. -/
def Raises (E : ε → Prop) (x : ExceptT ε (StateM σ) α) : Prop :=
  ∀ s e t, x.run.run s = (.error e, t) → E e

section Raises

variable {E : ε → Prop}

/-- What a step fails with is of any kind that includes the kind it fails with. -/
theorem Raises.mono {E' : ε → Prop} {x : ExceptT ε (StateM σ) α} (hx : Raises E x)
    (h : ∀ e, E e → E' e) : Raises E' x := fun s e t hrun => h e (hx s e t hrun)

theorem Raises.of_fails {x : ExceptT ε (StateM σ) α} (hx : Raises E x) {s : σ} {e : ε}
    (h : Fails x s e) : E e := hx s e (x.run.run s).2 (Prod.ext (fails_iff.mp h) rfl)

/-- A sequence fails with what one of its parts fails with. -/
theorem Raises.bind {x : ExceptT ε (StateM σ) α} {f : α → ExceptT ε (StateM σ) β}
    (hx : Raises E x) (hf : ∀ a, Raises E (f a)) : Raises E (x >>= f) := by
  intro s e t h
  rw [run_bind] at h
  rcases hr : x.run.run s with ⟨e' | a, u⟩
  · rw [hr] at h
    cases h
    exact hx s e t hr
  · rw [hr] at h
    exact hf a u e t h

/-- A step raises what it raises after a look at the state. -/
theorem raises_get_bind {f : σ → ExceptT ε (StateM σ) α} (hf : ∀ s, Raises E (f s)) :
    Raises E (get >>= f) := fun s e t h => hf s s e t h

theorem raises_pure (a : α) : Raises E (pure a : ExceptT ε (StateM σ) α) := fun _ _ _ h => nomatch h

theorem raises_throw {e : ε} (he : E e) : Raises E (throw e : ExceptT ε (StateM σ) α) := by
  intro s e' t h
  cases h
  exact he

theorem raises_lift {r : Except ε α} (hr : ∀ e, r = .error e → E e) :
    Raises E (liftM r : ExceptT ε (StateM σ) α) := by
  intro s e t h
  rw [run_lift] at h
  exact hr e (Prod.mk.inj h).1

theorem raises_modify (f : σ → σ) : Raises E (modify f : ExceptT ε (StateM σ) PUnit) :=
  fun _ _ _ h => nomatch h

theorem raises_set (s : σ) : Raises E (set s : ExceptT ε (StateM σ) PUnit) :=
  fun _ _ _ h => nomatch h

/-- A walk along a list fails with what its steps fail with. -/
theorem raises_allM {f : α → ExceptT ε (StateM σ) Bool} {as : List α}
    (hf : ∀ a, Raises E (f a)) : Raises E (as.allM f) := by
  induction as with
  | nil => exact raises_pure true
  | cons a rest ih =>
      refine (hf a).bind fun goesOn => ?_
      cases goesOn with
      | true => exact ih
      | false => exact raises_pure false

/-- A loop over a list fails with what its body fails with. -/
theorem raises_forIn {f : α → β → ExceptT ε (StateM σ) (ForInStep β)} {as : List α}
    (hf : ∀ a b, Raises E (f a b)) (b : β) : Raises E (forIn as b f) := by
  induction as generalizing b with
  | nil => exact raises_pure b
  | cons a rest ih =>
      rw [List.forIn_cons]
      refine (hf a b).bind fun next => ?_
      cases next with
      | done b => exact raises_pure b
      | yield b => exact ih b

end Raises

/-! ## Contracts -/

/-- Where a property of the state holds, a step leaves it true and fails with errors of one kind
only. -/
def Obeys (P : σ → Prop) (E : ε → Prop) (x : ExceptT ε (StateM σ) α) : Prop :=
  ∀ s, P s → P (x.run.run s).2 ∧ ∀ e, Fails x s e → E e

section Obeys

variable {P : σ → Prop} {E : ε → Prop}

theorem Keeps.obeys {x : ExceptT ε (StateM σ) α} (hkeeps : Keeps P x) (hraises : Raises E x) :
    Obeys P E x := fun s hs => ⟨hkeeps s hs, fun _ h => hraises.of_fails h⟩

theorem Obeys.bind {x : ExceptT ε (StateM σ) α} {f : α → ExceptT ε (StateM σ) β}
    (hx : Obeys P E x) (hf : ∀ a, Obeys P E (f a)) : Obeys P E (x >>= f) := by
  intro s hs
  refine ⟨Keeps.bind (fun s hs => (hx s hs).1) (fun a s hs => (hf a s hs).1) s hs, fun e he => ?_⟩
  rcases fails_bind.mp he with he | ⟨a, t, hreturns, he⟩
  · exact (hx s hs).2 e he
  · exact (hf a t (Keeps.of_returns (fun s hs => (hx s hs).1) hreturns hs)).2 e he

theorem obeys_pure (a : α) : Obeys P E (pure a : ExceptT ε (StateM σ) α) :=
  (keeps_pure a).obeys (raises_pure a)

theorem obeys_throw {e : ε} (he : E e) : Obeys P E (throw e : ExceptT ε (StateM σ) α) :=
  (keeps_throw e).obeys (raises_throw he)

theorem obeys_get : Obeys P E (get : ExceptT ε (StateM σ) σ) :=
  keeps_get.obeys fun _ _ _ h => nomatch h

/-- A loop over a list obeys what its body obeys. -/
theorem obeys_forIn {f : α → β → ExceptT ε (StateM σ) (ForInStep β)} {as : List α}
    (hf : ∀ a b, Obeys P E (f a b)) (b : β) : Obeys P E (forIn as b f) := by
  induction as generalizing b with
  | nil => exact obeys_pure b
  | cons a rest ih =>
      rw [List.forIn_cons]
      refine (hf a b).bind fun next => ?_
      cases next with
      | done b => exact obeys_pure b
      | yield b => exact ih b

end Obeys

/-! ## Views -/

/-- From a state and from what is seen of it, two steps come to the same: they return the same value or
both fail, and what is seen of the state that the first one leaves is what the second one leaves. -/
structure Mirrors {ε' τ : Type} (view : σ → τ) (x : ExceptT ε (StateM σ) α)
    (y : ExceptT ε' (StateM τ) α) (s : σ) : Prop where
  value : (y.run.run (view s)).1.toOption = (x.run.run s).1.toOption
  state : (y.run.run (view s)).2 = view (x.run.run s).2

section Mirrors

variable {ε' τ : Type} {view : σ → τ} {s : σ}

/-- Where the first step returns, the second one does. -/
theorem Mirrors.returns {x : ExceptT ε (StateM σ) α} {y : ExceptT ε' (StateM τ) α}
    (h : Mirrors view x y s) {a : α} {t : σ} (hx : Returns x s a t) : Returns y (view s) a (view t) := by
  have hrun : x.run.run s = (.ok a, t) := hx
  obtain ⟨hvalue, hstate⟩ := h
  rw [hrun] at hvalue hstate
  have hy := returns_of_toOption hvalue
  rwa [hstate] at hy

theorem Mirrors.bind {x : ExceptT ε (StateM σ) α} {y : ExceptT ε' (StateM τ) α}
    {f : α → ExceptT ε (StateM σ) β} {g : α → ExceptT ε' (StateM τ) β} (hx : Mirrors view x y s)
    (hf : ∀ a t, Returns x s a t → Mirrors view (f a) (g a) t) :
    Mirrors view (x >>= f) (y >>= g) s := by
  rcases hrun : x.run.run s with ⟨e | a, t⟩
  · obtain ⟨hvalue, hstate⟩ := hx
    rcases hrun' : y.run.run (view s) with ⟨e' | b, t'⟩
    · rw [hrun, hrun'] at hstate
      constructor
      · rw [run_bind_of_error hrun, run_bind_of_error hrun']
        rfl
      · rw [run_bind_of_error hrun, run_bind_of_error hrun']
        exact hstate
    · rw [hrun, hrun'] at hvalue
      cases hvalue
  · have hy : y.run.run (view s) = (.ok a, view t) := hx.returns hrun
    obtain ⟨hvalue, hstate⟩ := hf a t hrun
    constructor
    · rw [run_bind_of_ok hrun, run_bind_of_ok hy]
      exact hvalue
    · rw [run_bind_of_ok hrun, run_bind_of_ok hy]
      exact hstate

theorem mirrors_pure (a : α) : Mirrors view (pure a : ExceptT ε (StateM σ) α)
    (pure a : ExceptT ε' (StateM τ) α) s := ⟨rfl, rfl⟩

theorem mirrors_throw (e : ε) (e' : ε') : Mirrors view (throw e : ExceptT ε (StateM σ) α)
    (throw e' : ExceptT ε' (StateM τ) α) s := ⟨rfl, rfl⟩

theorem mirrors_lift {r : Except ε α} {r' : Except ε' α} (h : r'.toOption = r.toOption) :
    Mirrors view (liftM r : ExceptT ε (StateM σ) α) (liftM r' : ExceptT ε' (StateM τ) α) s := ⟨h, rfl⟩

theorem mirrors_set {t : σ} {t' : τ} (h : t' = view t) :
    Mirrors view (set t : ExceptT ε (StateM σ) PUnit) (set t' : ExceptT ε' (StateM τ) PUnit) s := ⟨rfl, h⟩

theorem mirrors_modify {f : σ → σ} {g : τ → τ} (h : g (view s) = view (f s)) :
    Mirrors view (modify f : ExceptT ε (StateM σ) PUnit)
      (modify g : ExceptT ε' (StateM τ) PUnit) s := ⟨rfl, h⟩

/-- Each of the steps may look at its own state. -/
theorem mirrors_get_bind {f : σ → ExceptT ε (StateM σ) α} {g : τ → ExceptT ε' (StateM τ) α}
    (h : Mirrors view (f s) (g (view s)) s) : Mirrors view (get >>= f) (get >>= g) s := ⟨h.value, h.state⟩

theorem mirrors_allM {f : α → ExceptT ε (StateM σ) Bool} {g : α → ExceptT ε' (StateM τ) Bool}
    {as : List α} (h : ∀ a ∈ as, ∀ s, Mirrors view (f a) (g a) s) :
    Mirrors view (as.allM f) (as.allM g) s := by
  induction as generalizing s with
  | nil => exact mirrors_pure true
  | cons a rest ih =>
      obtain ⟨ha, hrest⟩ := List.forall_mem_cons.mp h
      refine (ha s).bind fun goesOn t _ => ?_
      cases goesOn with
      | true => exact ih hrest
      | false => exact mirrors_pure false

theorem mirrors_forIn {f : α → β → ExceptT ε (StateM σ) (ForInStep β)}
    {g : α → β → ExceptT ε' (StateM τ) (ForInStep β)} {as : List α}
    (h : ∀ a b s, Mirrors view (f a b) (g a b) s) (b : β) :
    Mirrors view (forIn as b f) (forIn as b g) s := by
  induction as generalizing b s with
  | nil => exact mirrors_pure b
  | cons a rest ih =>
      rw [List.forIn_cons, List.forIn_cons]
      refine (h a b s).bind fun next t _ => ?_
      cases next with
      | done b => exact mirrors_pure b
      | yield b => exact ih b

end Mirrors

end QueryPlanner
