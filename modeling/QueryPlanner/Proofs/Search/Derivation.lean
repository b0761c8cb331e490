/-
# Derivations and their costs

A group is derived in a convention by a physical member in that convention, over
derivations of the groups it reads in the conventions it requires of them. Derivations are
finite trees, also where members read their own group. The cost of a member depends on the
winners of its inputs through their costs alone, so the same price can be asked over the
costs of any derivations.

* `Derivation` : the finite trees of physical members;
* `Derivation.cost` : the cost of a tree, bottom up;
* `costOf_eq_some_iff` : what a search takes as the cost of a member is its price over the winners
  of its inputs.
-/
import Mathlib.Data.List.Forall2
import Mathlib.Data.List.OfFn
import QueryPlanner.Proofs.Running
import QueryPlanner.Search.Pricing

namespace QueryPlanner

open Quantity

/-- The groups that a member reads, each with the convention required of it. -/
def Member.slots (m : Member) : List (GroupId × Convention) := m.children.zip m.inputs

namespace Search

variable {ν : Type} [Quantity ν]

/-! ## Prices -/

/-- A converter needs a convertlet between its two conventions. -/
def IsConvertible (planner : Planner ν) (m : Member) : Prop :=
  ∀ source, m.op = .converter source →
    ∃ convertlet, planner.registry.convertlet? source m.convention = some convertlet

/-- The statistics that the cost of a member is computed from. -/
def inputStatistics (memo : Memo ν) (m : Member) : List (Statistics ν) :=
  if m.slots.isEmpty then [memo.statisticsOf m.group]
  else m.slots.map fun slot => memo.statisticsOf slot.1

/-- The cost of a member over some costs of its inputs. A converter without a convertlet
adds nothing; it is part of no derivation. -/
def price (planner : Planner ν) (memo : Memo ν) (m : Member) (costs : List ν) : ν :=
  match m.op with
  | .converter source =>
      match planner.registry.convertlet? source m.convention with
      | some convertlet =>
          costs.headD (ofNat 0) +
            convertlet.price (memo.group m.group).rowType (memo.statisticsOf m.group).rows
      | none => costs.headD (ofNat 0)
  | op => planner.costs.cost op m.convention (inputStatistics memo m) costs

/-- The costs of the winners of a member's inputs, if all of them have one. -/
def inputCosts (memo : Memo ν) (m : Member) : Option (List ν) :=
  m.slots.mapM fun slot => (memo.winner slot.1 slot.2).map Winner.cost

omit [Quantity ν] in
/-- All inputs have winners of some costs. -/
theorem inputCosts_eq_some_iff {memo : Memo ν} {m : Member} {costs : List ν} :
    inputCosts memo m = some costs ↔
      List.Forall₂ (fun slot x => ∃ w, memo.winner slot.1 slot.2 = some w ∧ w.cost = x)
        m.slots costs := by
  unfold inputCosts
  induction m.slots generalizing costs with
  | nil =>
      rw [List.mapM_nil, List.forall₂_nil_left_iff]
      exact Option.some_inj.trans eq_comm
  | cons slot rest ih =>
      rw [List.mapM_cons, List.forall₂_cons_left_iff]
      constructor
      · intro h
        obtain ⟨x, hx, h⟩ := Option.bind_eq_some_iff.mp h
        obtain ⟨xs, hxs, h⟩ := Option.bind_eq_some_iff.mp h
        exact ⟨x, xs, Option.map_eq_some_iff.mp hx, ih.mp hxs, (Option.some.inj h).symm⟩
      · rintro ⟨x, xs, hx, hxs, rfl⟩
        rw [Option.map_eq_some_iff.mpr hx, ih.mpr hxs]
        rfl

omit [Quantity ν] in
/-- The winners of the inputs, told by their costs. -/
theorem inputWinners_eq (memo : Memo ν) (m : Member) :
    inputWinners memo m =
      (inputCosts memo m).map fun costs => (m.slots.map Prod.fst).zip costs := by
  unfold inputWinners inputCosts Member.slots
  induction m.children.zip m.inputs with
  | nil => rfl
  | cons slot rest ih =>
      obtain ⟨child, c⟩ := slot
      rw [List.mapM_cons, List.mapM_cons, ih]
      dsimp only
      rcases memo.winner child c with _ | w
      · rfl
      · generalize rest.mapM (fun slot => (memo.winner slot.1 slot.2).map Winner.cost) = costs
        cases costs with
        | none => rfl
        | some costs => rfl

omit [Quantity ν] in
theorem length_of_inputCosts {memo : Memo ν} {m : Member} {costs : List ν}
    (h : inputCosts memo m = some costs) : costs.length = m.slots.length :=
  (inputCosts_eq_some_iff.mp h).length_eq.symm

omit [Quantity ν] in
/-- The statistics of the inputs, read beside the costs of their winners. -/
theorem map_inputWinners [Quantity ν] {memo : Memo ν} {m : Member} {costs : List ν}
    (h : inputCosts memo m = some costs) {β : Type} (f : GroupId → β) :
    ((m.slots.map Prod.fst).zip costs).map (fun p => f p.1) = m.slots.map fun slot => f slot.1 := by
  have hlen : (m.slots.map Prod.fst).length ≤ costs.length := by
    rw [List.length_map, length_of_inputCosts h]
  calc ((m.slots.map Prod.fst).zip costs).map (fun p => f p.1)
      = (((m.slots.map Prod.fst).zip costs).map Prod.fst).map f := by
        rw [List.map_map]
        rfl
    _ = m.slots.map fun slot => f slot.1 := by
        rw [List.map_fst_zip hlen, List.map_map]
        rfl

/-- The cost of a member, if it has one, is its price over the winners of its inputs. -/
theorem costOf_eq_some_iff {planner : Planner ν} {memo : Memo ν} {m : Member} {x : ν}
    {costs : List ν} :
    costOf planner memo m = some (x, costs) ↔
      IsConvertible planner m ∧ inputCosts memo m = some costs ∧
        price planner memo m costs = x := by
  unfold costOf
  rw [inputWinners_eq]
  rcases hc : inputCosts memo m with _ | found
  · constructor
    · intro h
      cases h
    · rintro ⟨-, h, -⟩
      cases h
  · have hsnd : ((m.slots.map Prod.fst).zip found).map Prod.snd = found := by
      rw [List.map_snd_zip]
      rw [List.length_map, length_of_inputCosts hc]
    have hstat := map_inputWinners hc memo.statisticsOf
    rw [Option.map_some, Option.bind_eq_bind, Option.bind_some]
    dsimp only
    rw [hsnd, hstat]
    unfold price IsConvertible inputStatistics
    -- the cost comes with the costs of the inputs, which `found` are
    have hpair : ∀ f : List ν → ν,
        some (f found, found) = some (x, costs) ↔ some found = some costs ∧ f costs = x := by
      intro f
      constructor
      · intro h
        cases h
        exact ⟨rfl, rfl⟩
      · rintro ⟨h, rfl⟩
        cases h
        rfl
    cases hop : m.op with
    | converter source =>
        simp only [Operator.converter.injEq, forall_eq']
        rcases planner.registry.convertlet? source m.convention with _ | convertlet
        · simp
        · simp only [Option.some.injEq, exists_eq', true_and]
          simpa using hpair fun costs => costs.headD (ofNat 0) +
            convertlet.price (memo.group m.group).rowType (memo.statisticsOf m.group).rows
    | _ =>
        simp only [reduceCtorEq, false_implies, implies_true, true_and, List.isEmpty_map]
        exact hpair _

section Costed

variable {planner : Planner ν} {memo : Memo ν} {m : Member} {x : ν} {costs : List ν}
  (h : costOf planner memo m = some (x, costs))

include h

/-- A member that has a cost reads winners, at their costs. -/
theorem exists_winner_of_mem_slots {slot : GroupId × Convention} (hslot : slot ∈ m.slots) :
    ∃ w, memo.winner slot.1 slot.2 = some w ∧ w.cost ∈ costs := by
  obtain ⟨-, hinputs, -⟩ := costOf_eq_some_iff.mp h
  obtain ⟨y, hy, w, hw, rfl⟩ := exists_mem_of_forall₂ (inputCosts_eq_some_iff.mp hinputs).flip hslot
  exact ⟨w, hw, hy⟩

theorem exists_winner_of_mem_costs {y : ν} (hy : y ∈ costs) :
    ∃ g c w, memo.winner g c = some w ∧ w.cost = y := by
  obtain ⟨-, hinputs, -⟩ := costOf_eq_some_iff.mp h
  obtain ⟨slot, -, hw⟩ := exists_mem_of_forall₂ (inputCosts_eq_some_iff.mp hinputs) hy
  exact ⟨slot.1, slot.2, hw⟩

end Costed

/-! ## Trees -/

/-- A physical member of a group in a convention, with the convertlet that it may need. -/
structure Offers (planner : Planner ν) (memo : Memo ν) (m : MemberId) (g : GroupId)
    (c : Convention) : Prop where
  listed : m ∈ (memo.group g).members
  physical : (memo.member m).isLogical = false
  convention : (memo.member m).convention = c
  convertible : IsConvertible planner (memo.member m)

/-- The finite trees of physical members that derive a group in a convention: a member of
the group in the convention, over a tree for each of its slots. -/
inductive Derivation (planner : Planner ν) (memo : Memo ν) : GroupId → Convention → Type
  | node {g : GroupId} {c : Convention} (m : MemberId) (offered : Offers planner memo m g c)
      (inputs : ∀ i : Fin (memo.member m).slots.length,
        Derivation planner memo (memo.member m).slots[i].1 (memo.member m).slots[i].2) :
      Derivation planner memo g c

/-- The cost of a derivation: the price of its root over the costs of its inputs. -/
def Derivation.cost {planner : Planner ν} {memo : Memo ν} {g : GroupId} {c : Convention} :
    Derivation planner memo g c → ν
  | .node m _ inputs => price planner memo (memo.member m) (List.ofFn fun i => (inputs i).cost)

/-- Over derivations of its slots, a member makes a derivation. -/
theorem Offers.exists_derivation {planner : Planner ν} {memo : Memo ν} {m : MemberId}
    {g : GroupId} {c : Convention} (h : Offers planner memo m g c) {costs : List ν}
    (hin : List.Forall₂ (fun slot x => ∃ t : Derivation planner memo slot.1 slot.2, t.cost = x)
      (memo.member m).slots costs) :
    ∃ t : Derivation planner memo g c, t.cost = price planner memo (memo.member m) costs := by
  obtain ⟨hlen, hget⟩ := List.forall₂_iff_get.mp hin
  have htree : ∀ i : Fin (memo.member m).slots.length,
      ∃ t : Derivation planner memo (memo.member m).slots[i].1 (memo.member m).slots[i].2,
        t.cost = costs.get ⟨i, hlen ▸ i.isLt⟩ := fun i => hget i i.isLt (hlen ▸ i.isLt)
  -- one derivation for each slot, chosen at once
  choose inputs hinputs using htree
  refine ⟨.node m h inputs, ?_⟩
  have hcosts : (List.ofFn fun i => (inputs i).cost) = costs := by
    apply List.ext_getElem
    · rw [List.length_ofFn, hlen]
    · intro i hi hi'
      rw [List.getElem_ofFn]
      exact hinputs _
  unfold Derivation.cost
  rw [hcosts]

end Search

end QueryPlanner
