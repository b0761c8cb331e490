/-
# Registration

Conventions, convertlets, rules and implementors are registered in any order, and what they refer to
is looked up no earlier than the draft is frozen. A call that is refused changes nothing, so a draft
holds the first of the things registered under each key. The entries of the convertlets and the index
of their pairs are in step after every call; when the draft is frozen, names and edges are noted down
from them, and all of these parts answer every question about conversions alike.

* `Registration` : the calls, and `run_perform`, `state_perform` : what each of them does;
* `find?_foldl_addNew` : a list that takes only new keys has the first of each key;
* `rules_after` and the like : what the calls leave of each kind;
* `IsInStep.perform`, `IsInStep.after` : a call, and so any calls, keep the index in step;
* `exists_build_eq_error_iff` : which drafts cannot be frozen;
* `Registry.IsFrozenFrom` : how a registry agrees with the calls and with itself;
* `registration_atomic_and_views_agree` : registration is atomic and the views agree.
-/
import QueryPlanner.Proofs.Registry
import QueryPlanner.Proofs.Search.Integrity

namespace QueryPlanner

variable {ν : Type}

/-! ## Lists with one element for each key -/

section Keys

variable {α κ : Type} [DecidableEq κ] {key : α → κ} {as bs : List α}

/-- Adds an element unless there is one of its key. -/
def addNew (key : α → κ) (as : List α) (a : α) : List α :=
  if as.any fun b => decide (key b = key a) then as else as ++ [a]

theorem nodup_addNew (h : (as.map key).Nodup) (a : α) : ((addNew key as a).map key).Nodup := by
  unfold addNew
  split
  · exact h
  · next hnew =>
      rw [List.map_append, List.map_singleton, List.nodup_append]
      refine ⟨h, List.nodup_singleton _, fun k hk l hl heq => hnew ?_⟩
      obtain ⟨b, hb, rfl⟩ := List.mem_map.mp hk
      rw [List.mem_singleton.mp hl] at heq
      exact List.any_eq_true.mpr ⟨b, hb, decide_eq_true heq⟩

theorem nodup_foldl_addNew (h : (as.map key).Nodup) :
    ((bs.foldl (addNew key) as).map key).Nodup := by
  induction bs generalizing as with
  | nil => exact h
  | cons b rest ih => exact ih (nodup_addNew h b)

/-- An element whose key is there already is never the first of its key. -/
theorem find?_addNew_append {p : α → Bool} (hp : ∀ a b, key a = key b → p a = p b) (a : α) :
    (addNew key as a ++ bs).find? p = (as ++ a :: bs).find? p := by
  unfold addNew
  split
  · next hany =>
      obtain ⟨b, hb, hkey⟩ := List.any_eq_true.mp hany
      rw [List.find?_append, List.find?_append, List.find?_cons]
      rcases hpa : p a with _ | _
      · rfl
      · have hsome : (as.find? p).isSome :=
          List.find?_isSome.mpr ⟨b, hb, (hp b a (of_decide_eq_true hkey)).trans hpa⟩
        obtain ⟨x, hx⟩ := Option.isSome_iff_exists.mp hsome
        rw [hx, Option.some_or, Option.some_or]
  · rw [List.append_assoc, List.singleton_append]

/-- Where only new keys are added, what is found by its key is the first one that was offered. -/
theorem find?_foldl_addNew {p : α → Bool} (hp : ∀ a b, key a = key b → p a = p b) :
    (bs.foldl (addNew key) as).find? p = (as ++ bs).find? p := by
  induction bs generalizing as with
  | nil => rw [List.foldl_nil, List.append_nil]
  | cons b rest ih => rw [List.foldl_cons, ih, find?_addNew_append hp]

/-- Every key that was offered is there, and no other one. -/
theorem exists_mem_foldl_addNew (k : κ) :
    (∃ a ∈ bs.foldl (addNew key) as, key a = k) ↔ ∃ a ∈ as ++ bs, key a = k := by
  have hfind : (bs.foldl (addNew key) as).find? (fun a => decide (key a = k)) =
      (as ++ bs).find? fun a => decide (key a = k) :=
    find?_foldl_addNew fun a b hab => by rw [hab]
  have hsome := Bool.eq_iff_iff.mp (congrArg Option.isSome hfind)
  rw [List.find?_isSome, List.find?_isSome] at hsome
  simp only [decide_eq_true_eq] at hsome
  exact hsome

end Keys

/-! ## Convertlets -/

/-- A value for a new key is written behind all others. -/
theorem Dictionary.insert_of_contains_eq_false {κ α : Type} [DecidableEq κ] {d : Dictionary κ α}
    {key : κ} (h : d.contains key = false) (a : α) : d.insert key a = d ++ [(key, a)] := by
  induction d with
  | nil => rfl
  | cons p rest ih =>
      obtain ⟨k, b⟩ := p
      unfold contains get? at h
      by_cases hk : k = key
      · rw [if_pos hk] at h
        cases h
      · rw [if_neg hk] at h
        unfold insert
        rw [if_neg hk, ih h, List.cons_append]

/-- The index has the pairs of the entries. -/
theorem Convertlets.contains_byPair (convertlets : Convertlets ν) (pair : Convention × Convention) :
    convertlets.byPair.contains pair =
      convertlets.entries.any fun c => decide (c.pair = pair) := by
  rw [Bool.eq_iff_iff, List.any_eq_true, Dictionary.contains, Option.isSome_iff_exists]
  constructor
  · rintro ⟨i, hi⟩
    obtain ⟨c, hc, hpair⟩ := Option.map_eq_some_iff.mp ((convertlets.indexed pair i).mp hi)
    exact ⟨c, List.mem_of_getElem? hc, decide_eq_true hpair⟩
  · rintro ⟨c, hc, hpair⟩
    obtain ⟨i, hi⟩ := List.mem_iff_getElem?.mp hc
    refine ⟨i, (convertlets.indexed pair i).mpr ?_⟩
    rw [hi, Option.map_some, of_decide_eq_true hpair]

/-- Adding a convertlet: one that converts nothing and one for a pair that is bridged are refused,
and any other one becomes the last entry and is indexed by its number. -/
theorem Convertlets.add_cases (convertlets : Convertlets ν) (c : Convertlet ν) :
    (c.source = c.target ∧ convertlets.add c = .error (.identityConvertlet c.source)) ∨
    (c.source ≠ c.target ∧ (convertlets.entries.any fun b => decide (b.pair = c.pair)) = true ∧
      convertlets.add c = .error (.duplicateConvertlet c.source c.target)) ∨
    (c.source ≠ c.target ∧ (convertlets.entries.any fun b => decide (b.pair = c.pair)) = false ∧
      ∃ added, convertlets.add c = .ok added ∧ added.entries = convertlets.entries ++ [c] ∧
        added.byPair = convertlets.byPair ++ [(c.pair, convertlets.entries.length)]) := by
  unfold add
  rw [← contains_byPair]
  by_cases hends : c.source = c.target
  · exact Or.inl ⟨hends, if_pos hends⟩
  · rw [if_neg hends]
    split
    · next hold => exact Or.inr (Or.inl ⟨hends, hold, rfl⟩)
    · next hnew =>
        exact Or.inr (Or.inr ⟨hends, hnew, _, rfl, rfl,
          Dictionary.insert_of_contains_eq_false hnew _⟩)

/-! ## Calls -/

/-- A convention is its name. -/
theorem Convention.eq_of_name_eq {c d : Convention} (h : c.name = d.name) : c = d :=
  congrArg Convention.mk h

/-- A call by which something is registered. -/
inductive Registration (ν : Type) where
  | convention (c : Convention)
  | convertlet (k : Convertlet ν)
  | rule (r : Rule ν)
  | implementor (i : Implementor ν)

namespace Registration

/-- Makes a call. -/
def perform : Registration ν → Draft.Register ν Unit
  | convention c => Draft.addConvention c
  | convertlet k => Draft.addConvertlet k
  | rule r => Draft.addRule r
  | implementor i => Draft.addImplementor i

/-- The draft with what a call registers, or why it is refused. -/
def enter (draft : Draft ν) : Registration ν → Except ConfigurationError (Draft ν)
  | convention c =>
      if draft.conventions.contains c then .error (.duplicateConvention c.name)
      else .ok { draft with conventions := draft.conventions ++ [c] }
  | convertlet k => (draft.convertlets.add k).map fun convertlets => { draft with convertlets }
  | rule r =>
      if draft.rules.any fun r' => decide (r'.name = r.name) then .error (.duplicateRule r.name)
      else .ok { draft with rules := draft.rules ++ [r] }
  | implementor i =>
      if draft.implementors.any fun i' => decide (i'.convention = i.convention) then
        .error (.duplicateImplementor i.convention)
      else .ok { draft with implementors := draft.implementors ++ [i] }

/-- A call is refused and changes nothing, or registers what it is for. -/
theorem run_perform (step : Registration ν) (draft : Draft ν) :
    step.perform.run.run draft =
      match step.enter draft with
      | .error e => (.error e, draft)
      | .ok draft' => (.ok (), draft') := by
  have hget : (get : Draft.Register ν (Draft ν)).run.run draft = (.ok draft, draft) := rfl
  cases step with
  | convention c =>
      simp only [perform, Draft.addConvention, enter]
      rw [run_bind_of_ok hget]
      by_cases hold : draft.conventions.contains c
      · simp only [if_pos hold]
        rfl
      · simp only [if_neg hold]
        rfl
  | convertlet k =>
      simp only [perform, Draft.addConvertlet, enter]
      rw [run_bind_of_ok hget]
      rcases draft.convertlets.add k with e | convertlets <;> rfl
  | rule r =>
      simp only [perform, Draft.addRule, enter]
      rw [run_bind_of_ok hget]
      by_cases hold : draft.rules.any fun r' => decide (r'.name = r.name)
      · simp only [if_pos hold]
        rfl
      · simp only [if_neg hold]
        rfl
  | implementor i =>
      simp only [perform, Draft.addImplementor, enter]
      rw [run_bind_of_ok hget]
      by_cases hold : draft.implementors.any fun i' => decide (i'.convention = i.convention)
      · simp only [if_pos hold]
        rfl
      · simp only [if_neg hold]
        rfl

/-- A call that fails leaves the draft as it was. -/
theorem run_perform_of_error {step : Registration ν} {draft : Draft ν} {e : ConfigurationError}
    (h : (step.perform.run.run draft).1 = .error e) : (step.perform.run.run draft).2 = draft := by
  rw [run_perform] at h ⊢
  rcases hentered : step.enter draft with e' | draft'
  · rfl
  · rw [hentered] at h
    cases h

/-- The draft after a call: each kind of things takes what is new of it. -/
def effect (draft : Draft ν) : Registration ν → Draft ν
  | convention c => { draft with conventions := addNew Convention.name draft.conventions c }
  | convertlet k => { draft with convertlets := (draft.convertlets.add k).toOption.getD draft.convertlets }
  | rule r => { draft with rules := addNew Rule.name draft.rules r }
  | implementor i => { draft with implementors := addNew Implementor.convention draft.implementors i }

theorem state_perform (step : Registration ν) (draft : Draft ν) :
    (step.perform.run.run draft).2 = step.effect draft := by
  rw [run_perform]
  cases step with
  | convention c =>
      have hknown : draft.conventions.contains c =
          draft.conventions.any fun b => decide (b.name = c.name) := by
        rw [Bool.eq_iff_iff, List.contains_iff_mem, List.any_eq_true]
        constructor
        · intro hc
          exact ⟨c, hc, decide_eq_true rfl⟩
        · rintro ⟨b, hb, hname⟩
          rwa [← Convention.eq_of_name_eq (of_decide_eq_true hname)]
      simp only [enter, effect, addNew, hknown]
      cases draft.conventions.any fun b => decide (b.name = c.name) <;> rfl
  | convertlet k =>
      simp only [enter, effect]
      cases draft.convertlets.add k <;> rfl
  | rule r =>
      simp only [enter, effect, addNew]
      cases draft.rules.any fun b => decide (b.name = r.name) <;> rfl
  | implementor i =>
      simp only [enter, effect, addNew]
      cases draft.implementors.any fun b => decide (b.convention = i.convention) <;> rfl

/-- The convention that a call registers. -/
def convention? : Registration ν → Option Convention
  | convention c => some c
  | _ => none

/-- The convertlet that a call registers; one that converts nothing is refused in any draft. -/
def convertlet? : Registration ν → Option (Convertlet ν)
  | convertlet k => if k.source = k.target then none else some k
  | _ => none

/-- The rule that a call registers. -/
def rule? : Registration ν → Option (Rule ν)
  | rule r => some r
  | _ => none

/-- The implementor that a call registers. -/
def implementor? : Registration ν → Option (Implementor ν)
  | implementor i => some i
  | _ => none

end Registration

/-! ## Sequences of calls -/

namespace Draft

open Registration

variable {start : Draft ν} {steps : List (Registration ν)}

/-- The draft after some calls, whether they succeed or not. -/
def after (start : Draft ν) (steps : List (Registration ν)) : Draft ν :=
  steps.foldl (fun draft step => (step.perform.run.run draft).2) start

/-- One kind of things after some calls, if each call adds its own unless their keys are there. -/
theorem after_eq_foldl {α κ : Type} [DecidableEq κ] {key : α → κ} (things : Draft ν → List α)
    {thing? : Registration ν → Option α}
    (h : ∀ draft step, things (step.perform.run.run draft).2 =
      match thing? step with
      | some a => addNew key (things draft) a
      | none => things draft) :
    things (start.after steps) = (steps.filterMap thing?).foldl (addNew key) (things start) := by
  rw [List.foldl_filterMap, after]
  exact (List.foldl_hom things fun draft step => (h draft step).symm).symm

/-- The conventions are those at the start and those of the calls, each once. -/
theorem conventions_after : (start.after steps).conventions =
    (steps.filterMap convention?).foldl (addNew Convention.name) start.conventions := by
  refine after_eq_foldl Draft.conventions fun draft step => ?_
  rw [state_perform]
  cases step <;> rfl

/-- The convertlets are those at the start and those of the calls, one for each pair. -/
theorem entries_after : (start.after steps).convertlets.entries =
    (steps.filterMap convertlet?).foldl (addNew Convertlet.pair) start.convertlets.entries := by
  refine after_eq_foldl (fun draft => draft.convertlets.entries) fun draft step => ?_
  rw [state_perform]
  cases step with
  | convertlet k =>
      simp only [effect, convertlet?]
      rcases draft.convertlets.add_cases k with ⟨hends, hadd⟩ | ⟨hends, hold, hadd⟩ |
          ⟨hends, hnew, added, hadd, hentries, -⟩
      · rw [hadd, if_pos hends]
        rfl
      · rw [hadd, if_neg hends]
        exact (if_pos hold).symm
      · rw [hadd, if_neg hends]
        exact hentries.trans (if_neg (by rw [hnew]; exact Bool.false_ne_true)).symm
  | convention c | rule r | implementor i => rfl

/-- The rules are those at the start and those of the calls, one for each name. -/
theorem rules_after : (start.after steps).rules =
    (steps.filterMap rule?).foldl (addNew Rule.name) start.rules := by
  refine after_eq_foldl Draft.rules fun draft step => ?_
  rw [state_perform]
  cases step <;> rfl

/-- The implementors are those at the start and those of the calls, one for each convention. -/
theorem implementors_after : (start.after steps).implementors =
    (steps.filterMap implementor?).foldl (addNew Implementor.convention) start.implementors := by
  refine after_eq_foldl Draft.implementors fun draft step => ?_
  rw [state_perform]
  cases step <;> rfl

/-- The index of the pairs is in step with the entries: it has the pair of each of them, with its
number. -/
def IsInStep (draft : Draft ν) : Prop :=
  draft.convertlets.byPair = draft.convertlets.pairs.zipIdx

/-- Every call keeps the index in step, whether it succeeds or not. -/
theorem IsInStep.perform {draft : Draft ν} (h : draft.IsInStep) (step : Registration ν) :
    (step.perform.run.run draft).2.IsInStep := by
  rw [state_perform]
  cases step with
  | convertlet k =>
      rcases draft.convertlets.add_cases k with ⟨-, hadd⟩ | ⟨-, -, hadd⟩ |
          ⟨-, -, added, hadd, hentries, hindex⟩
      · simp only [effect, hadd]
        exact h
      · simp only [effect, hadd]
        exact h
      · simp only [effect, hadd]
        show added.byPair = (added.entries.map Convertlet.pair).zipIdx
        rw [hindex, hentries, h, List.map_append, List.zipIdx_append]
        simp [Convertlets.pairs]
  | convention c | rule r | implementor i => exact h

/-- So does every sequence of calls. -/
theorem IsInStep.after (h : start.IsInStep) (steps : List (Registration ν)) :
    (start.after steps).IsInStep := by
  unfold Draft.after
  induction steps generalizing start with
  | nil => exact h
  | cons step rest ih => exact ih (h.perform step)

/-! ## Freezing -/

/-- The conventions that registered implementors and convertlets refer to. -/
def mentioned (draft : Draft ν) : List Convention :=
  draft.implementors.map Implementor.convention ++
    draft.convertlets.pairs.flatMap fun pair => [pair.1, pair.2]

/-- A draft cannot be frozen exactly if something in it mentions an unregistered convention. -/
theorem exists_build_eq_error_iff {draft : Draft ν} :
    (∃ e, draft.build = .error e) ↔ ∃ c ∈ draft.mentioned, c ∉ draft.conventions := by
  unfold build mentioned
  split
  · next i hunknown =>
      have hnew := List.find?_some hunknown
      simp only [Bool.not_eq_true', List.contains_eq_mem, decide_eq_false_iff_not] at hnew
      have hmem := List.mem_map_of_mem (f := Implementor.convention)
        (List.mem_of_find?_eq_some hunknown)
      exact ⟨fun _ => ⟨_, List.mem_append_left _ hmem, hnew⟩, fun _ => ⟨_, rfl⟩⟩
  · next hknown =>
      split
      · next e he =>
          unfold Conversions.freeze at he
          split at he
          · next c hunknown =>
              have hnew := List.find?_some hunknown
              simp only [Bool.not_eq_true', List.contains_eq_mem, decide_eq_false_iff_not] at hnew
              exact ⟨fun _ => ⟨c, List.mem_append_right _ (List.mem_of_find?_eq_some hunknown), hnew⟩,
                fun _ => ⟨_, rfl⟩⟩
          · cases he
      · next conversions hfreeze =>
          constructor
          · rintro ⟨e, ⟨⟩⟩
          · rintro ⟨c, hc, hnew⟩
            rcases List.mem_append.mp hc with hc | hc
            · obtain ⟨i, hi, rfl⟩ := List.mem_map.mp hc
              exact absurd (by simpa using List.find?_eq_none.mp hknown i hi) hnew
            · unfold Conversions.freeze at hfreeze
              split at hfreeze
              · cases hfreeze
              · next hends => exact absurd (by simpa using List.find?_eq_none.mp hends c hc) hnew

/-- A draft in which nothing has been registered but, possibly, the built-in conventions. -/
inductive IsFresh : Draft ν → Prop
  | empty : IsFresh {}
  | builtin : IsFresh builtin

/-- The conventions that are registered at the start or by some call. -/
def Knows (start : Draft ν) (steps : List (Registration ν)) (c : Convention) : Prop :=
  c ∈ start.conventions ∨ .convention c ∈ steps

/-- The conventions that an implementor or a convertlet of some call needs. -/
def Needs (steps : List (Registration ν)) (c : Convention) : Prop :=
  (∃ i, .implementor i ∈ steps ∧ i.convention = c) ∨
    ∃ k, .convertlet k ∈ steps ∧ k.source ≠ k.target ∧ (c = k.source ∨ c = k.target)

theorem mem_filterMap_convention? {c : Convention} :
    c ∈ steps.filterMap convention? ↔ .convention c ∈ steps := by
  rw [List.mem_filterMap]
  constructor
  · rintro ⟨step, hstep, hc⟩
    cases step <;> cases hc
    exact hstep
  · intro hstep
    exact ⟨_, hstep, rfl⟩

theorem mem_filterMap_implementor? {i : Implementor ν} :
    i ∈ steps.filterMap implementor? ↔ .implementor i ∈ steps := by
  rw [List.mem_filterMap]
  constructor
  · rintro ⟨step, hstep, hi⟩
    cases step <;> cases hi
    exact hstep
  · intro hstep
    exact ⟨_, hstep, rfl⟩

theorem mem_filterMap_convertlet? {k : Convertlet ν} :
    k ∈ steps.filterMap convertlet? ↔ .convertlet k ∈ steps ∧ k.source ≠ k.target := by
  rw [List.mem_filterMap]
  constructor
  · rintro ⟨step, hstep, hk⟩
    cases step with
    | convertlet k' =>
        obtain ⟨hends, hsame⟩ := Option.ite_none_left_eq_some.mp hk
        rw [← Option.some.inj hsame]
        exact ⟨hstep, hends⟩
    | convention c => cases hk
    | rule r => cases hk
    | implementor i => cases hk
  · rintro ⟨hstep, hends⟩
    exact ⟨_, hstep, if_neg hends⟩

/-- The conventions after some calls are those that were registered at any time. -/
theorem mem_conventions_after {c : Convention} :
    c ∈ (start.after steps).conventions ↔ start.Knows steps c := by
  have hkey {as : List Convention} : (∃ b ∈ as, b.name = c.name) ↔ c ∈ as := by
    constructor
    · rintro ⟨b, hb, hname⟩
      rwa [← Convention.eq_of_name_eq hname]
    · intro hc
      exact ⟨c, hc, rfl⟩
  rw [← hkey, conventions_after, exists_mem_foldl_addNew, hkey, List.mem_append,
    mem_filterMap_convention?]
  rfl

theorem IsFresh.entries_eq_nil (h : start.IsFresh) : start.convertlets.entries = [] := by
  cases h <;> rfl

theorem IsFresh.isInStep (h : start.IsFresh) : start.IsInStep := by
  cases h <;> rfl

theorem IsFresh.rules_eq_nil (h : start.IsFresh) : start.rules = [] := by
  cases h <;> rfl

theorem IsFresh.implementors_eq_nil (h : start.IsFresh) : start.implementors = [] := by
  cases h <;> rfl

theorem IsFresh.nodup_conventions (h : start.IsFresh) :
    (start.conventions.map Convention.name).Nodup := by
  cases h with
  | empty => exact List.nodup_nil
  | builtin =>
      show (Convention.builtin.map Convention.name).Nodup
      decide +kernel

/-- The convertlets after some calls are among those that the calls offered. -/
theorem mem_entries_after (h : start.IsFresh) {pair : Convention × Convention} :
    (∃ k ∈ (start.after steps).convertlets.entries, k.pair = pair) ↔
      ∃ k, .convertlet k ∈ steps ∧ k.source ≠ k.target ∧ k.pair = pair := by
  rw [entries_after, exists_mem_foldl_addNew, h.entries_eq_nil, List.nil_append]
  simp only [mem_filterMap_convertlet?, and_assoc]

/-- What the drafts after some calls mention is what the calls need. -/
theorem mem_mentioned_after (h : start.IsFresh) {c : Convention} :
    c ∈ (start.after steps).mentioned ↔ Needs steps c := by
  have himplementor : (∃ i ∈ (start.after steps).implementors, i.convention = c) ↔
      ∃ i, .implementor i ∈ steps ∧ i.convention = c := by
    rw [implementors_after, exists_mem_foldl_addNew, h.implementors_eq_nil, List.nil_append]
    simp only [mem_filterMap_implementor?]
  have hconvertlet : (∃ pair ∈ (start.after steps).convertlets.pairs, c = pair.1 ∨ c = pair.2) ↔
      ∃ k, .convertlet k ∈ steps ∧ k.source ≠ k.target ∧ (c = k.source ∨ c = k.target) := by
    constructor
    · rintro ⟨pair, hpair, hc⟩
      obtain ⟨k, hk, hends, rfl⟩ := (mem_entries_after h).mp (List.mem_map.mp hpair)
      exact ⟨k, hk, hends, hc⟩
    · rintro ⟨k, hk, hends, hc⟩
      exact ⟨k.pair, List.mem_map.mpr ((mem_entries_after h).mpr ⟨k, hk, hends, rfl⟩), hc⟩
  unfold mentioned Needs
  rw [List.mem_append, List.mem_map, List.mem_flatMap, himplementor, ← hconvertlet]
  simp only [List.mem_cons, List.not_mem_nil, or_false]

/-- Freezing fails exactly if an implementor or a convertlet needs a convention that was never
registered. -/
theorem exists_build_after_eq_error_iff (h : start.IsFresh) :
    (∃ e, (start.after steps).build = .error e) ↔
      ∃ c, Needs steps c ∧ ¬ start.Knows steps c := by
  rw [exists_build_eq_error_iff]
  simp only [mem_mentioned_after h, mem_conventions_after]

end Draft

/-! ## Views -/

/-- What a registry holds after some calls, and how its parts agree: each thing is held once; the
entries are the first convertlets that the calls offered for their pairs; the index has the pairs of
the entries, the names those of the conventions, and the edges the conversions of the entries; and
every question about conversions is answered alike, whichever of these parts answers it. -/
structure Registry.IsFrozenFrom (registry : Registry ν) (start : Draft ν)
    (steps : List (Registration ν)) : Prop where
  nodup_conventions : (registry.conventions.map Convention.name).Nodup
  nodup_rules : (registry.rules.map Rule.name).Nodup
  nodup_convertlets : registry.convertlets.pairs.Nodup
  source_ne_target : ∀ k ∈ registry.convertlets.entries, k.source ≠ k.target
  mem_conventions_iff : ∀ c, c ∈ registry.conventions ↔ start.Knows steps c
  convention_eq_ok_iff : ∀ name c, registry.conversions.convention name = .ok c ↔
    c ∈ registry.conventions ∧ c.name = name
  entries_eq : registry.convertlets.entries =
    (steps.filterMap Registration.convertlet?).foldl (addNew Convertlet.pair) []
  byPair_eq : registry.convertlets.byPair = registry.convertlets.pairs.zipIdx
  successors_eq : ∀ a, registry.conversions.successors a =
    Conversions.outgoing registry.convertlets.pairs a
  convertlet?_eq_some_iff : ∀ a b k, registry.convertlet? a b = some k ↔
    k ∈ registry.convertlets.entries ∧ k.source = a ∧ k.target = b
  convertlet?_eq_find? : ∀ a b, registry.convertlet? a b =
    (steps.filterMap Registration.convertlet?).find? fun k => decide (k.source = a ∧ k.target = b)
  isSome_convertlet?_iff_converts : ∀ a b, (registry.convertlet? a b).isSome ↔
    registry.conversions.converts a b = true
  isSome_convertlet?_iff_mem : ∀ a b, (registry.convertlet? a b).isSome ↔
    ∃ targets, registry.conversions.convertibleTo a = .ok targets ∧ b ∈ targets
  isSome_convertlet?_of_mem_hops : ∀ a b path, registry.conversions.path a b = some path →
    ∀ hop ∈ hops path, (registry.convertlet? hop.1 hop.2).isSome

namespace Conversions

variable {conventions : List Convention} {pairs : List (Convention × Convention)}
  {conversions : Conversions}

/-- Noting conventions down by their names. -/
theorem get?_foldl_insert_name (conventions : List Convention) (names : Dictionary String Convention)
    (name : String) :
    (conventions.foldl (fun names c => names.insert c.name c) names).get? name =
      if ⟨name⟩ ∈ conventions then some ⟨name⟩ else names.get? name := by
  induction conventions generalizing names with
  | nil => rfl
  | cons c rest ih =>
      obtain ⟨first⟩ := c
      rw [List.foldl_cons, ih, Dictionary.get?_insert]
      by_cases hrest : ⟨name⟩ ∈ rest
      · simp [hrest]
      · by_cases hfirst : first = name
        · simp [hfirst]
        · simp [hrest, hfirst, Ne.symm hfirst]

theorem get?_byName_freeze (h : freeze conventions pairs = .ok conversions) (name : String) :
    conversions.byName.get? name = if ⟨name⟩ ∈ conventions then some ⟨name⟩ else none := by
  rw [eq_of_freeze_eq_ok h]
  exact get?_foldl_insert_name conventions [] name

/-- The conventions that were noted down are those that were given. -/
theorem contains_freeze (h : freeze conventions pairs = .ok conversions) (c : Convention) :
    conversions.contains c = true ↔ c ∈ conventions := by
  rw [contains, Dictionary.contains, get?_byName_freeze h]
  by_cases hc : c ∈ conventions
  · simp [hc]
  · simp [hc]

theorem convention_freeze (h : freeze conventions pairs = .ok conversions) (name : String)
    (c : Convention) :
    conversions.convention name = .ok c ↔ c ∈ conventions ∧ c.name = name := by
  rw [convention, get?_byName_freeze h]
  by_cases hname : ⟨name⟩ ∈ conventions
  · rw [if_pos hname]
    constructor
    · rintro ⟨⟩
      exact ⟨hname, rfl⟩
    · rintro ⟨-, rfl⟩
      rfl
  · rw [if_neg hname]
    constructor
    · rintro ⟨⟩
    · rintro ⟨hc, rfl⟩
      exact absurd hc hname

/-- The ends of conversions that can be noted down are registered. -/
theorem mem_of_freeze_eq_ok (h : freeze conventions pairs = .ok conversions) {a b : Convention}
    (hpair : (a, b) ∈ pairs) : a ∈ conventions ∧ b ∈ conventions := by
  unfold freeze at h
  split at h
  · cases h
  · next hends =>
      have hknown : ∀ c ∈ [a, b], c ∈ conventions := fun c hc => by
        simpa using List.find?_eq_none.mp hends c (List.mem_flatMap.mpr ⟨(a, b), hpair, hc⟩)
      exact ⟨hknown a List.mem_cons_self, hknown b (List.mem_cons_of_mem _ List.mem_cons_self)⟩

/-- From a registered convention it can be converted to where the conversions from it lead. -/
theorem mem_convertibleTo_freeze (h : freeze conventions pairs = .ok conversions)
    (a b : Convention) :
    (∃ targets, conversions.convertibleTo a = .ok targets ∧ b ∈ targets) ↔ (a, b) ∈ pairs := by
  unfold convertibleTo
  rw [← mem_freeze h, mem_iff]
  constructor
  · rintro ⟨targets, htargets, hb⟩
    split at htargets
    · rwa [Except.ok.inj htargets]
    · cases htargets
  · intro hb
    have ha : conversions.contains a = true :=
      (contains_freeze h a).mpr (mem_of_freeze_eq_ok h ((mem_freeze h).mp (mem_iff.mpr hb))).1
    exact ⟨_, if_pos ha, hb⟩

end Conversions

namespace Draft

open Registration

variable {start : Draft ν} {steps : List (Registration ν)}

theorem IsFresh.nodup_conventions_after (h : start.IsFresh) :
    ((start.after steps).conventions.map Convention.name).Nodup := by
  rw [conventions_after]
  exact nodup_foldl_addNew h.nodup_conventions

theorem IsFresh.nodup_rules_after (h : start.IsFresh) :
    ((start.after steps).rules.map Rule.name).Nodup := by
  rw [rules_after, h.rules_eq_nil]
  exact nodup_foldl_addNew List.nodup_nil

theorem IsFresh.nodup_convertlets_after (h : start.IsFresh) :
    (start.after steps).convertlets.pairs.Nodup := by
  rw [Convertlets.pairs, entries_after, h.entries_eq_nil]
  exact nodup_foldl_addNew List.nodup_nil

theorem IsFresh.source_ne_target (h : start.IsFresh) :
    ∀ k ∈ (start.after steps).convertlets.entries, k.source ≠ k.target := by
  intro k hk
  obtain ⟨k', -, hends, hpair⟩ := (mem_entries_after h).mp ⟨k, hk, rfl⟩
  obtain ⟨hsource, htarget⟩ := Prod.mk.inj hpair
  rwa [← hsource, ← htarget]

/-- The convertlet for a pair after some calls is the first one that they offered for it. -/
theorem IsFresh.lookup?_after (h : start.IsFresh) (a b : Convention) :
    (start.after steps).convertlets.lookup? a b =
      (steps.filterMap convertlet?).find? fun k => decide (k.source = a ∧ k.target = b) := by
  have hkey : ∀ k l : Convertlet ν, k.pair = l.pair →
      decide (k.source = a ∧ k.target = b) = decide (l.source = a ∧ l.target = b) := by
    intro k l hkl
    obtain ⟨hsource, htarget⟩ := Prod.mk.inj hkl
    rw [hsource, htarget]
  have hfirst : (start.after steps).convertlets.entries.find?
      (fun k => decide (k.source = a ∧ k.target = b)) =
        (steps.filterMap convertlet?).find? fun k => decide (k.source = a ∧ k.target = b) := by
    rw [entries_after, find?_foldl_addNew hkey, h.entries_eq_nil, List.nil_append]
  rw [← hfirst]
  rcases hfind : (start.after steps).convertlets.entries.find?
    (fun k => decide (k.source = a ∧ k.target = b)) with _ | k
  · rw [hfind, Option.eq_none_iff_forall_not_mem]
    intro k hk
    obtain ⟨hmem, hends⟩ := Convertlets.lookup?_eq_some_iff.mp hk
    exact List.find?_eq_none.mp hfind k hmem (decide_eq_true hends)
  · have hends := List.find?_some hfind
    rw [hfind]
    exact Convertlets.lookup?_eq_some_iff.mpr
      ⟨List.mem_of_find?_eq_some hfind, of_decide_eq_true hends⟩

/-- What is frozen after some calls on a fresh draft agrees with them and with itself. -/
theorem IsFresh.isFrozenFrom (h : start.IsFresh) {registry : Registry ν}
    (hbuild : (start.after steps).build = .ok registry) : registry.IsFrozenFrom start steps := by
  obtain ⟨-, hfreeze, hconvertlets, hrules, -⟩ := build_eq_ok_iff.mp hbuild
  have hconventions : registry.conventions = (start.after steps).conventions := by
    unfold Registry.conventions
    rw [Conversions.eq_of_freeze_eq_ok hfreeze]
  have hlookup : ∀ a b, (registry.convertlet? a b).isSome ↔
      (a, b) ∈ (start.after steps).convertlets.pairs := by
    intro a b
    unfold Registry.convertlet?
    rw [hconvertlets, Convertlets.isSome_lookup?_iff]
  exact
    { nodup_conventions := hconventions ▸ h.nodup_conventions_after
      nodup_rules := hrules ▸ h.nodup_rules_after
      nodup_convertlets := hconvertlets ▸ h.nodup_convertlets_after
      source_ne_target := hconvertlets ▸ h.source_ne_target
      mem_conventions_iff := fun c => hconventions ▸ mem_conventions_after
      convention_eq_ok_iff := hconventions ▸ Conversions.convention_freeze hfreeze
      entries_eq := by rw [hconvertlets, entries_after, h.entries_eq_nil]
      byPair_eq := hconvertlets ▸ h.isInStep.after steps
      successors_eq := hconvertlets ▸ Conversions.successors_freeze hfreeze
      convertlet?_eq_some_iff := fun a b k => Convertlets.lookup?_eq_some_iff
      convertlet?_eq_find? := fun a b => by
        rw [Registry.convertlet?, hconvertlets, h.lookup?_after]
      isSome_convertlet?_iff_converts := fun a b => by
        rw [hlookup, Conversions.converts_iff, Conversions.mem_freeze hfreeze]
      isSome_convertlet?_iff_mem := fun a b => by
        rw [hlookup, Conversions.mem_convertibleTo_freeze hfreeze]
      isSome_convertlet?_of_mem_hops := fun a b path hpath hop hhop =>
        (hlookup _ _).mpr ((Conversions.mem_freeze hfreeze).mp
          (Conversions.mem_of_mem_hops_path hpath hhop).1) }

end Draft

/-- **Registration is atomic and the views agree.** A call that fails leaves the draft as it was;
freezing after any calls fails exactly if an implementor or a convertlet among them needs a
convention that was never registered; and whatever registry is frozen holds each thing once and
answers every question about conversions alike. -/
theorem registration_atomic_and_views_agree (start : Draft ν) (hstart : start.IsFresh)
    (steps : List (Registration ν)) :
    (∀ (draft : Draft ν) (step : Registration ν) (e : ConfigurationError),
      (step.perform.run.run draft).1 = .error e → (step.perform.run.run draft).2 = draft) ∧
    ((∃ e, (start.after steps).build = .error e) ↔
      ∃ c, Draft.Needs steps c ∧ ¬ start.Knows steps c) ∧
    ∀ registry, (start.after steps).build = .ok registry → registry.IsFrozenFrom start steps :=
  ⟨fun _ _ _ h => Registration.run_perform_of_error h, Draft.exists_build_after_eq_error_iff hstart,
    fun _ hbuild => hstart.isFrozenFrom hbuild⟩

/-- Calls on the built-in conventions some of which are refused: a convertlet is registered twice,
and so is a convention. -/
def repeatedCalls : List (Registration Float) :=
  [.convertlet .loop, .convertlet .loop, .convention .compiled, .rule .commuteJoin]

theorem registration_atomic_and_views_agree_repeatedCalls :
    (Draft.builtin : Draft Float).IsFresh ∧
      (let draft := (Draft.builtin : Draft Float).after [.convertlet .loop]
        let second := (Registration.convertlet .loop : Registration Float).perform.run.run draft
        second.1 = .error (.duplicateConvertlet .iterator .compiled) ∧ second.2 = draft) ∧
      ∃ registry, (Draft.builtin.after repeatedCalls).build = .ok registry ∧
        registry.IsFrozenFrom Draft.builtin repeatedCalls := by
  obtain ⟨hatomic, -, hfrozen⟩ :=
    registration_atomic_and_views_agree Draft.builtin .builtin repeatedCalls
  exact ⟨.builtin, ⟨rfl, hatomic _ _ _ rfl⟩, _, rfl, hfrozen _ rfl⟩

end QueryPlanner
