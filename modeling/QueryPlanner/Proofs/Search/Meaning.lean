/-
# Searches keep the meaning of the memo

Sound rules propose what denotes the bags of the groups that it is proposed for, and converters
denote what they convert. So whatever a search does to a memo whose groups stand for bags, they
go on to stand for them.

* `means_materialize` : new inputs of what is proposed become groups of the bags they denote;
* `keeps_extends_insert` : what means the bag of a group may be inserted into the group;
* `isKept_extends` : a search with sound rules and bridged conversions keeps the meaning.
-/
import QueryPlanner.Proofs.Memo.Growth
import QueryPlanner.Proofs.Registry
import QueryPlanner.Proofs.Rule
import QueryPlanner.Proofs.Search.Invariants
import QueryPlanner.Proofs.Search.Pricing

namespace QueryPlanner

variable {ν : Type} {source : RowSource} {den den' : GroupId → Bag} {n n' : Nat} {memo : Memo ν}

/-! ## Proposals in larger memos -/

mutual

/-- An input denotes in a larger memo what it denotes. -/
theorem Source.Means.mono (hn : n ≤ n') (hden : ∀ g < n, den' g = den g) :
    ∀ {s : Source} {b : Bag}, s.Means source den n b → s.Means source den' n' b
  | .group g, b, h => by
      obtain ⟨hg, hb⟩ := h
      exact ⟨Nat.lt_of_lt_of_le hg hn, (hden g hg).trans hb⟩
  | .fresh op children, b, h => by
      obtain ⟨bags, hbags, hop⟩ := h
      exact ⟨bags, Source.MeanList.mono hn hden hbags, hop⟩

theorem Source.MeanList.mono (hn : n ≤ n') (hden : ∀ g < n, den' g = den g) :
    ∀ {ss : List Source} {bags : List Bag}, Source.MeanList source den n ss bags →
      Source.MeanList source den' n' ss bags
  | [], bags, h => h
  | s :: rest, bags, h => by
      obtain ⟨b, bs, rfl, hs, hrest⟩ := h
      exact ⟨b, bs, rfl, Source.Means.mono hn hden hs, Source.MeanList.mono hn hden hrest⟩

end

/-- What is proposed denotes in a larger memo what it denotes. -/
theorem Proposal.Means.mono (hn : n ≤ n') (hden : ∀ g < n, den' g = den g) {p : Proposal}
    {out : Bag} (h : p.Means source den n out) : p.Means source den' n' out := by
  cases p with
  | substitution op children =>
      obtain ⟨hlt, hop⟩ := h
      refine ⟨fun g hg => Nat.lt_of_lt_of_le (hlt g hg) hn, ?_⟩
      rw [List.map_congr_left fun g hg => hden g (hlt g hg)]
      exact hop
  | compound op children =>
      obtain ⟨bags, hbags, hop⟩ := h
      exact ⟨bags, Source.MeanList.mono hn hden hbags, hop⟩
  | physical op c inputs =>
      obtain ⟨hlt, hop, himplemented⟩ := h
      refine ⟨fun slot hslot => Nat.lt_of_lt_of_le (hlt slot hslot) hn, ?_, himplemented⟩
      have hbags : inputs.map (den' ∘ Prod.fst) = inputs.map (den ∘ Prod.fst) :=
        List.map_congr_left fun slot hslot => hden slot.1 (hlt slot hslot)
      rw [List.map_map] at hop ⊢
      rw [hbags]
      exact hop

namespace Search

/-! ## Insertions -/

mutual

/-- A proposed input becomes a group of the bag that it denotes. -/
theorem means_materialize : ∀ (s : Source) {memo after : Memo ν} {den : GroupId → Bag} {b : Bag}
    {r : Except (OptimizationError ν) GroupId}, memo.Means source den →
      s.Means source den memo.groups.size b → (materialize s).run.run memo = (r, after) →
        ∃ den', Memo.Continues source den memo.groups.size after den' ∧
          ∀ g, r = .ok g → g < after.groups.size ∧ den' g = b
  | .group g, memo, after, den, b, r, h, hs, hrun => by
      obtain ⟨hg, rfl⟩ := hs
      cases hrun
      refine ⟨den, h.continues, fun x hx => ?_⟩
      cases hx
      exact ⟨h.led.leader_lt hg, h.leader g⟩
  | .fresh op children, memo, after, den, b, r, h, hs, hrun => by
      obtain ⟨bags, hbags, hop⟩ := hs
      unfold materialize at hrun
      rw [run_bind] at hrun
      rcases hlist : (materializeList children).run.run memo with ⟨e | gs, between⟩
      · rw [hlist] at hrun
        cases hrun
        obtain ⟨den', hcontinues, -⟩ := means_materializeList children h hbags hlist
        exact ⟨den', hcontinues, fun g hg => nomatch hg⟩
      · rw [hlist] at hrun
        obtain ⟨den', hcontinues, hgs⟩ := means_materializeList children h hbags hlist
        obtain ⟨hlt, rfl⟩ := hgs gs rfl
        obtain ⟨den'', hafter, hgroup⟩ := Memo.means_addLogical hcontinues.means hlt hop hrun
        exact ⟨den'', hcontinues.trans hafter, hgroup⟩

theorem means_materializeList : ∀ (ss : List Source) {memo after : Memo ν} {den : GroupId → Bag}
    {bags : List Bag} {r : Except (OptimizationError ν) (List GroupId)}, memo.Means source den →
      Source.MeanList source den memo.groups.size ss bags →
        (materializeList ss).run.run memo = (r, after) →
          ∃ den', Memo.Continues source den memo.groups.size after den' ∧
            ∀ gs, r = .ok gs → (∀ g ∈ gs, g < after.groups.size) ∧ gs.map den' = bags
  | [], memo, after, den, bags, r, h, hss, hrun => by
      cases hrun
      refine ⟨den, h.continues, fun gs hgs => ?_⟩
      cases hgs
      exact ⟨fun g hg => absurd hg List.not_mem_nil, hss.symm⟩
  | s :: rest, memo, after, den, bags, r, h, hss, hrun => by
      obtain ⟨b, bs, rfl, hs, hrest⟩ := hss
      unfold materializeList at hrun
      rw [run_bind] at hrun
      rcases hfirst : (materialize s).run.run memo with ⟨e | g, between⟩
      · rw [hfirst] at hrun
        cases hrun
        obtain ⟨den', hcontinues, -⟩ := means_materialize s h hs hfirst
        exact ⟨den', hcontinues, fun gs hgs => nomatch hgs⟩
      · rw [hfirst] at hrun
        obtain ⟨den', hcontinues, hgroup⟩ := means_materialize s h hs hfirst
        obtain ⟨hg, rfl⟩ := hgroup g rfl
        have hrest' := Source.MeanList.mono hcontinues.size hcontinues.agree hrest
        dsimp only at hrun
        rw [run_bind] at hrun
        rcases hlist : (materializeList rest).run.run between with ⟨e | gs, last⟩
        · rw [hlist] at hrun
          cases hrun
          obtain ⟨den'', hafter, -⟩ := means_materializeList rest hcontinues.means hrest' hlist
          exact ⟨den'', hcontinues.trans hafter, fun gs hgs => nomatch hgs⟩
        · rw [hlist] at hrun
          cases hrun
          obtain ⟨den'', hafter, hgs⟩ := means_materializeList rest hcontinues.means hrest' hlist
          obtain ⟨hlt, hbags⟩ := hgs gs rfl
          refine ⟨den'', hcontinues.trans hafter, fun all hall => ?_⟩
          cases hall
          refine ⟨List.forall_mem_cons.mpr ⟨Nat.lt_of_lt_of_le hg hafter.size, hlt⟩, ?_⟩
          rw [List.map_cons, hbags, hafter.agree g hg]

end

/-- The memos that go on from one of `n` groups that stood for given bags. -/
def Extends (source : RowSource) (den : GroupId → Bag) (n : Nat) (memo : Memo ν) : Prop :=
  ∃ den', Memo.Continues source den n memo den'

/-- Whatever keeps the groups and their bags keeps a memo among those that go on from another. -/
theorem extends_of_meansOn {after : Memo ν} (h : Memo.Continues source den n memo den')
    (hafter : Memo.MeansOn source den' memo.groups.size after) : Extends source den n after :=
  ⟨den', hafter.1, h.size.trans_eq hafter.2.symm, h.agree⟩

/-- Groups go on to stand for their bags where conventions are required of them. -/
theorem continues_requireAll (inputs : List (GroupId × Convention))
    (h : Memo.Continues source den n memo den') :
    Memo.Continues source den n
        (inputs.foldl (fun memo (child, c) => memo.require child c) memo) den' ∧
      (inputs.foldl (fun memo (child, c) => memo.require child c) memo).groups.size =
        memo.groups.size := by
  induction inputs generalizing memo with
  | nil => exact ⟨h, rfl⟩
  | cons input rest ih =>
      have hsize : (memo.require input.1 input.2).groups.size = memo.groups.size :=
        Array.size_modify ..
      have hone : Memo.Continues source den n (memo.require input.1 input.2) den' :=
        ⟨Memo.means_require h.means _ _, h.size.trans_eq hsize.symm, h.agree⟩
      obtain ⟨hcontinues, hrest⟩ := ih hone
      exact ⟨hcontinues, hrest.trans hsize⟩

/-- A member that denotes the bag of a group may be added to the group. -/
theorem extends_addTo (origin : String) {g : GroupId} {op : Operator} {c : Convention}
    {children : List GroupId} {inputs : List Convention}
    (h : Memo.Continues source den n memo den') (hg : g < memo.groups.size)
    (hlt : ∀ child ∈ children, child < memo.groups.size)
    (hop : Operator.Denotes source op (children.map den') (den' g))
    (himplemented : c.isLogical = false → IsImplemented op c inputs) :
    Extends source den n ((do
      let _ ← Memo.addTo g op c children inputs origin : Memo.Edit ν Unit).run.run memo).2 := by
  refine extends_of_meansOn h ?_
  exact (Memo.keeps_means_addTo hg hlt hop himplemented origin).bind (fun _ => keeps_pure _) _
    ⟨h.means, rfl⟩

/-- What means the bag of a group may be inserted into the group. -/
theorem keeps_extends_insert {g : GroupId} (hg : g < n) {p : Proposal}
    (hp : p.Means source den n (den g)) (rule : String) :
    Keeps (Extends source den n) (insert g rule p : Memo.Edit ν Unit) := by
  rintro memo ⟨den', h⟩
  have hp' := hp.mono h.size h.agree
  have hg' : g < memo.groups.size := Nat.lt_of_lt_of_le hg h.size
  rw [← h.agree g hg] at hp'
  cases p with
  | substitution op children => exact extends_addTo rule h hg' hp'.1 hp'.2 fun hl => nomatch hl
  | compound op children =>
      obtain ⟨bags, hbags, hop⟩ := hp'
      show Extends source den n ((do
        let groups ← materializeList children
        addLogicalTo g op groups rule : Memo.Edit ν Unit).run.run memo).2
      rw [run_bind]
      -- the new inputs go on from the memo even where making them fails half way
      rcases hlist : (materializeList children).run.run memo with ⟨e | gs, between⟩
      · obtain ⟨den'', hbetween, -⟩ := means_materializeList children h.means hbags hlist
        exact ⟨den'', h.trans hbetween⟩
      · obtain ⟨den'', hbetween, hgs⟩ := means_materializeList children h.means hbags hlist
        obtain ⟨hlt, rfl⟩ := hgs gs rfl
        have hgroup : g < between.groups.size := Nat.lt_of_lt_of_le hg' hbetween.size
        refine extends_addTo rule (h.trans hbetween) hgroup hlt ?_ fun hl => nomatch hl
        rw [hbetween.agree g hg']
        exact hop
  | physical op c inputs =>
      obtain ⟨hlt, hop, himplemented⟩ := hp'
      unfold insert
      dsimp only
      split
      · exact ⟨den', h⟩
      · rw [run_bind_of_ok
          (show (modify _ : Memo.Edit ν PUnit).run.run memo = (.ok ⟨⟩, _) from rfl)]
        obtain ⟨hcontinues, hsize⟩ := continues_requireAll inputs h
        refine extends_addTo rule hcontinues (hsize ▸ hg') (fun child hchild => ?_) hop
          fun _ => himplemented
        obtain ⟨slot, hslot, rfl⟩ := List.mem_map.mp hchild
        rw [hsize]
        exact hlt slot hslot

/-! ## Searches -/

variable {planner : Planner ν}

/-- A member that does not exist is not logical, and meets none of the patterns for logical ones. -/
theorem lt_of_isMetBy {pattern : Pattern} (h : pattern.isMetBy memo (memo.member m) = true)
    (hlogical : ∃ kind ps, pattern = .logicalOver kind ps) : m < memo.members.size := by
  obtain ⟨kind, ps, rfl⟩ := hlogical
  have hconvention := (Rule.isMetBy_logicalOver h).2
  by_contra hno
  unfold Memo.member at hconvention
  rw [Array.getElem?_eq_none (Nat.le_of_not_lt hno)] at hconvention
  exact absurd hconvention (by decide)

/-- Firing a sound rule keeps the meaning of the memo. -/
theorem keeps_extends_fire {rule : Rule ν} (hrule : rule.IsSound)
    (hlogical : ∃ kind ps, rule.pattern = .logicalOver kind ps) (m : MemberId) :
    Keeps (fun s => Extends source den n s.memo) (fire planner rule m) := by
  rintro s ⟨den', h⟩
  unfold fire
  rw [run_bind_of_ok (show (memoNow : Step ν (Memo ν)).run.run s = (.ok s.memo, s) from rfl)]
  dsimp only
  split
  · exact ⟨den', h⟩
  · split
    · exact ⟨den', h⟩
    · next hmet =>
        rw [Bool.not_eq_true', Bool.not_eq_false] at hmet
        obtain ⟨hmember, -⟩ := h.means.member m (lt_of_isMetBy hmet hlogical)
        have hproposals := hrule planner.catalog s.memo source den' (s.memo.member m) h.means
          hmember hmet
        -- the proposals are made for the memo as it is now, and inserted into what it becomes
        have hkeeps : Keeps (fun t : Search ν => Extends source den' s.memo.groups.size t.memo) (do
            let goesOn ← spend planner.budget
            if !goesOn then return false
            modifyMemo fun memo => memo.markApplied m rule.hash
            for proposal in rule.propose planner.catalog s.memo (s.memo.member m) do
              edit (insert (s.memo.member m).group rule.name proposal)
            return true : Step ν Bool) := by
          refine (keeps_spend _).bind fun goesOn => ?_
          split
          · exact keeps_pure false
          · refine (keeps_modifyMemo fun memo hmemo => ?_).bind fun _ => ?_
            · obtain ⟨den'', hcontinues⟩ := hmemo
              exact ⟨den'', Memo.means_markApplied hcontinues.means m rule.hash, hcontinues.size,
                hcontinues.agree⟩
            · refine (keeps_forIn (fun proposal hproposal _ => ?_) _).bind fun _ => keeps_pure true
              exact (keeps_edit (keeps_extends_insert hmember.group_lt
                (hproposals proposal hproposal) rule.name)).bind fun _ => keeps_pure _
        obtain ⟨den'', hafter⟩ := hkeeps s ⟨den', h.means.continues⟩
        exact ⟨den'', h.trans hafter⟩

variable [Quantity ν]

/-- The registered conversions of the standard registry are bridged. -/
theorem isBridged_of_mem_builtin {hop : Convention × Convention}
    (h : hop ∈ Conversions.builtin) : IsBridged hop.1 hop.2 := by
  simp only [Conversions.mem_builtin, List.mem_cons, List.not_mem_nil, or_false] at h
  rcases h with rfl | rfl | rfl | rfl | rfl
  · exact .fetch
  · exact .loop
  · exact .buffer
  · exact .toRecord
  · exact .toRow

/-- A search with the standard registry keeps the meaning of the memo. -/
theorem isKept_extends (hregistry : Registry.standard = .ok planner.registry) :
    IsKept planner (Extends source den n) := by
  rw [Registry.standard_eq, Except.ok.injEq] at hregistry
  constructor
  · rintro memo ⟨den', h⟩
    exact h.means.led
  · rintro memo g c ⟨den', h⟩
    exact extends_of_meansOn h ⟨Memo.means_require h.means g c, Array.size_modify ..⟩
  · rintro s ⟨den', h⟩
    have hsame := findWinners_sameUpTo planner s
    exact extends_of_meansOn h ⟨h.means.of_sameUpTo hsame fun x => ⟨rfl, rfl⟩, hsame.size⟩
  · intro rule hrule _ _ m _ _ s hs _
    rw [← hregistry] at hrule
    exact keeps_extends_fire (Rule.isSound_of_mem_standard hrule)
      (Rule.logical_of_mem_standard hrule) m s hs
  · rintro hop hhop - memo g hg ⟨den', h⟩
    rw [← hregistry] at hhop
    have hconverts : Operator.Denotes source (.converter hop.1) ([g].map den') (den' g) :=
      .converter
    have hkeeps : Keeps (Memo.MeansOn source den' memo.groups.size) (Memo.addTo g
        (.converter hop.1) hop.2 [g] [hop.1] converterOrigin : Memo.Edit ν MemberId) :=
      Memo.keeps_means_addTo hg (List.forall_mem_singleton.mpr hg) hconverts (fun _ =>
        .converter (isBridged_of_mem_builtin hhop)) converterOrigin
    exact extends_of_meansOn h (hkeeps memo ⟨h.means, rfl⟩)

end Search

end QueryPlanner
