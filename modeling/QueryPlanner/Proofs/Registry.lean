/-
# The standard registry

Registration succeeds for the built-in conventions, convertlets and implementors and for all
rules, so that the standard registry is known in full.

* `Draft.run_forM_of_nodup` : things of different keys are all registered;
* `Draft.build_eq_ok_iff` : what a draft is frozen to;
* `Registry.standard_eq` : the standard registry.
-/
import QueryPlanner.Proofs.Running
import QueryPlanner.Registry.Standard

namespace QueryPlanner

variable {ν : Type}

/-- Where the keys of a list are different, that of a new element is none of the earlier ones. -/
theorem any_eq_false_of_nodup {α κ : Type} [DecidableEq κ] {key : α → κ} {as rest : List α} {a : α}
    (h : ((as ++ a :: rest).map key).Nodup) : as.any (fun b => decide (key b = key a)) = false := by
  rw [List.map_append, List.map_cons] at h
  rw [List.any_eq_false]
  intro b hb hkey
  exact (List.nodup_append.mp h).2.2 _ (List.mem_map_of_mem hb) _ List.mem_cons_self
    (of_decide_eq_true hkey)

namespace Draft

/-- Convertlets that can be added one after another are registered in order. -/
theorem run_forM_addConvertlet (cs : List (Convertlet ν)) (draft : Draft ν)
    {convertlets : Convertlets ν} (h : cs.foldlM Convertlets.add draft.convertlets = .ok convertlets) :
    (cs.forM addConvertlet).run.run draft = (.ok (), { draft with convertlets }) := by
  induction cs generalizing draft with
  | nil =>
      cases h
      rfl
  | cons c rest ih =>
      rw [List.foldlM_cons] at h
      rcases hadd : draft.convertlets.add c with e | added
      · rw [hadd] at h
        cases h
      · rw [hadd] at h
        have hstep : (addConvertlet c).run.run draft =
            (.ok (), { draft with convertlets := added }) := by
          unfold addConvertlet
          rw [run_bind_of_ok (show (get : Register ν (Draft ν)).run.run draft = (.ok draft, draft)
            from rfl), hadd]
          rfl
        show (do addConvertlet c; rest.forM addConvertlet : Register ν PUnit).run.run draft = _
        rw [run_bind_of_ok hstep]
        exact ih { draft with convertlets := added } h

/-- Things of different keys are registered in order, where each is added to what there is of its kind
unless there is one of its key. -/
theorem run_forM_of_nodup {α κ : Type} [DecidableEq κ] (key : α → κ) {add : α → Register ν Unit}
    (things : Draft ν → List α) (put : Draft ν → List α → Draft ν)
    (hadd : ∀ draft a, (things draft).any (fun b => decide (key b = key a)) = false →
      (add a).run.run draft = (.ok (), put draft (things draft ++ [a])))
    (hthings : ∀ draft as, things (put draft as) = as)
    (hput : ∀ draft as bs, put (put draft as) bs = put draft bs)
    (hsame : ∀ draft, put draft (things draft) = draft) (as : List α) (draft : Draft ν)
    (h : ((things draft ++ as).map key).Nodup) :
    (as.forM add).run.run draft = (.ok (), put draft (things draft ++ as)) := by
  induction as generalizing draft with
  | nil =>
      rw [List.append_nil, hsame]
      rfl
  | cons a rest ih =>
      show (do add a; rest.forM add : Register ν PUnit).run.run draft = _
      rw [run_bind_of_ok (hadd draft a (any_eq_false_of_nodup h))]
      have hrest := ih (put draft (things draft ++ [a]))
      rw [hthings, hput, List.append_assoc, List.singleton_append] at hrest
      exact hrest h

/-- Implementors of different conventions are registered in order. -/
theorem run_forM_addImplementor (is : List (Implementor ν)) (draft : Draft ν)
    (h : ((draft.implementors ++ is).map Implementor.convention).Nodup) :
    (is.forM addImplementor).run.run draft =
      (.ok (), { draft with implementors := draft.implementors ++ is }) := by
  refine run_forM_of_nodup Implementor.convention Draft.implementors
    (fun draft is => { draft with implementors := is }) (fun draft i hnew => ?_)
    (fun _ _ => rfl) (fun _ _ _ => rfl) (fun _ => rfl) is draft h
  unfold addImplementor
  rw [run_bind_of_ok (show (get : Register ν (Draft ν)).run.run draft = (.ok draft, draft)
    from rfl), hnew, if_neg Bool.false_ne_true]
  rfl

/-- Rules of different names are registered in order. -/
theorem run_forM_addRule (rules : List (Rule ν)) (draft : Draft ν)
    (h : ((draft.rules ++ rules).map Rule.name).Nodup) :
    (rules.forM addRule).run.run draft =
      (.ok (), { draft with rules := draft.rules ++ rules }) := by
  refine run_forM_of_nodup Rule.name Draft.rules (fun draft rules => { draft with rules })
    (fun draft r hnew => ?_) (fun _ _ => rfl) (fun _ _ _ => rfl) (fun _ => rfl) rules draft h
  unfold addRule
  rw [run_bind_of_ok (show (get : Register ν (Draft ν)).run.run draft = (.ok draft, draft)
    from rfl), hnew, if_neg Bool.false_ne_true]
  rfl

/-- A draft is frozen if its implementors are for registered conventions and its conversions can be
noted down; what it holds is kept as it is. -/
theorem build_eq_ok_iff {draft : Draft ν} {registry : Registry ν} :
    draft.build = .ok registry ↔
      draft.implementors.find? (fun i => !draft.conventions.contains i.convention) = none ∧
      Conversions.freeze draft.conventions draft.convertlets.pairs = .ok registry.conversions ∧
      registry.convertlets = draft.convertlets ∧ registry.rules = draft.rules ∧
      registry.implementors = draft.implementors := by
  unfold build
  split
  · next i hunknown =>
      rw [hunknown]
      constructor
      · rintro ⟨⟩
      · rintro ⟨⟨⟩, -⟩
  · next hknown =>
      split
      · next e he =>
          rw [he]
          constructor
          · rintro ⟨⟩
          · rintro ⟨-, ⟨⟩, -⟩
      · next conversions hconversions =>
          constructor
          · rintro ⟨⟩
            exact ⟨hknown, hconversions, rfl, rfl, rfl⟩
          · rintro ⟨-, hfreeze, hconvertlets, hrules, himplementors⟩
            rw [hconversions, Except.ok.injEq] at hfreeze
            cases registry
            cases hfreeze
            cases hconvertlets
            cases hrules
            cases himplementors
            rfl

end Draft

section Builtin

variable [Quantity ν]

/-- What the built-in convertlets lead to from where. -/
theorem Convertlet.pairs_builtin :
    (Convertlet.builtin : List (Convertlet ν)).map Convertlet.pair =
      [(.federated, .iterator), (.iterator, .compiled), (.compiled, .iterator),
        (.compiled, .compiledRecord), (.compiledRecord, .compiled)] := rfl

/-- What holds of the pairs of conventions holds of the convertlets. -/
theorem Convertlet.forall_mem_builtin {P : Convention × Convention → Prop}
    (h : ∀ pair ∈ [(.federated, .iterator), (.iterator, .compiled), (.compiled, .iterator),
        (.compiled, .compiledRecord), (.compiledRecord, .compiled)], P pair) :
    ∀ c ∈ (Convertlet.builtin : List (Convertlet ν)), P c.pair := by
  intro c hc
  apply h
  rw [← pairs_builtin (ν := ν)]
  exact List.mem_map_of_mem hc

/-- The built-in convertlets lead from one physical convention to another. -/
theorem Convertlet.ne_logical_of_mem_builtin :
    ∀ c ∈ (Convertlet.builtin : List (Convertlet ν)), c.source ≠ .logical ∧ c.target ≠ .logical :=
  forall_mem_builtin (P := fun pair => pair.1 ≠ .logical ∧ pair.2 ≠ .logical) (by decide)

omit [Quantity ν] in
theorem Implementor.nodup_builtin :
    ((Implementor.builtin : List (Implementor ν)).map Implementor.convention).Nodup := by
  have hconventions : (Implementor.builtin : List (Implementor ν)).map Implementor.convention =
      [.iterator, .compiled, .compiledRecord, .federated] := rfl
  rw [hconventions]
  decide +kernel

omit [Quantity ν] in
theorem Rule.names_standard : (Rule.standard : List (Rule ν)).map Rule.name =
    ["JoinCommutativity", "FilterIntoJoin", "MergeFilter", "MergeProject", "RemoveTrivialProject",
      "ImplIteratorValues", "ImplIteratorScan", "ImplIteratorFilter", "ImplIteratorProject",
      "ImplIteratorJoin", "ImplIteratorSort", "ImplIteratorLimit", "FederatedScan",
      "ImplCompiledFilter", "ImplCompiledProject", "ImplCompiledJoin", "ImplRecordFilter",
      "ImplRecordProject"] := rfl

omit [Quantity ν] in
theorem Rule.nodup_standard : ((Rule.standard : List (Rule ν)).map Rule.name).Nodup := by
  rw [names_standard]
  decide +kernel

omit [Quantity ν] in
/-- The hashes of the rules are those of their names, and they are different as well. -/
theorem Rule.nodup_hash_standard : ((Rule.standard : List (Rule ν)).map Rule.hash).Nodup := by
  have hhashes : (Rule.standard : List (Rule ν)).map Rule.hash =
      ((Rule.standard : List (Rule ν)).map Rule.name).map Text.hash := rfl
  rw [hhashes, names_standard]
  decide +kernel

/-- The built-in convertlets can be added in their order. -/
theorem Convertlets.exists_add_builtin :
    ∃ convertlets : Convertlets ν, Convertlet.builtin.foldlM add empty = .ok convertlets ∧
      convertlets.entries = Convertlet.builtin ∧
      convertlets.byPair = [((.federated, .iterator), 0), ((.iterator, .compiled), 1),
        ((.compiled, .iterator), 2), ((.compiled, .compiledRecord), 3),
        ((.compiledRecord, .compiled), 4)] :=
  ⟨_, rfl, rfl, rfl⟩

/-- The built-in convertlets, as they are registered. -/
def Convertlets.builtin : Convertlets ν where
  entries := Convertlet.builtin
  byPair := [((.federated, .iterator), 0), ((.iterator, .compiled), 1), ((.compiled, .iterator), 2),
    ((.compiled, .compiledRecord), 3), ((.compiledRecord, .compiled), 4)]
  indexed := by
    obtain ⟨convertlets, -, hentries, hindex⟩ := exists_add_builtin (ν := ν)
    rw [← hentries, ← hindex]
    exact convertlets.indexed

/-- The built-in conventions and the conversions of the built-in convertlets. -/
def Conversions.builtin : Conversions where
  conventions := Convention.builtin
  byName := [("NONE", .logical), ("ITERATOR", .iterator), ("COMPILED", .compiled),
    ("COMPILED_RECORD", .compiledRecord), ("FEDERATED", .federated)]
  edges := [(.federated, [.iterator]), (.iterator, [.compiled]),
    (.compiled, [.iterator, .compiledRecord]), (.compiledRecord, [.compiled])]

theorem Conversions.freeze_builtin :
    freeze Convention.builtin (Convertlets.builtin : Convertlets ν).pairs = .ok builtin := rfl

/-- The conversions of the built-in convertlets. -/
theorem Conversions.mem_builtin {hop : Convention × Convention} : hop ∈ builtin ↔
    hop ∈ [(.federated, .iterator), (.iterator, .compiled), (.compiled, .iterator),
      (.compiled, .compiledRecord), (.compiledRecord, .compiled)] :=
  mem_freeze (rfl : freeze Convention.builtin _ = .ok builtin)

/-- The registry with the built-in conventions, convertlets and implementors and all rules, in the
order of registration. -/
def Registry.builtin : Registry ν where
  conversions := .builtin
  convertlets := .builtin
  rules := Rule.standard
  implementors := Implementor.builtin
  bridged _ := Conversions.mem_freeze Conversions.freeze_builtin

/-- All that a planner without extensions registers is registered. -/
theorem Registry.standard_eq :
    (Registry.standard : Except ConfigurationError (Registry ν)) = .ok .builtin := by
  have hconvertlets : Convertlet.builtin.foldlM Convertlets.add
      (Draft.builtin : Draft ν).convertlets = .ok .builtin := rfl
  have hnative : (Draft.addNative : Draft.Register ν Unit).run.run Draft.builtin =
      (.ok (), ⟨Convention.builtin, .builtin, [], Implementor.builtin⟩) := by
    unfold Draft.addNative
    rw [run_bind_of_ok (Draft.run_forM_addConvertlet _ _ hconvertlets)]
    exact Draft.run_forM_addImplementor _ _ Implementor.nodup_builtin
  have hregister : (do Draft.addNative; Draft.addStandardRules : Draft.Register ν Unit).run.run
      Draft.builtin =
        (.ok (), ⟨Convention.builtin, .builtin, Rule.standard, Implementor.builtin⟩) := by
    rw [run_bind_of_ok hnative]
    exact Draft.run_forM_addRule _ _ Rule.nodup_standard
  unfold Registry.standard
  dsimp only
  rw [hregister]
  exact Draft.build_eq_ok_iff.mpr ⟨rfl, Conversions.freeze_builtin, rfl, rfl, rfl⟩

theorem Registry.rules_of_standard {registry : Registry ν} (h : Registry.standard = .ok registry) :
    registry.rules = Rule.standard := by
  rw [Registry.standard_eq, Except.ok.injEq] at h
  rw [← h]
  rfl

end Builtin

end QueryPlanner
