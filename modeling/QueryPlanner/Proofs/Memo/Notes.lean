/-
# What the notes on groups say

Statistics and winners are noted on groups one by one. Edits write none: a new group has none, and a
group that absorbs another one forgets its winners and takes over statistics at most. So whatever holds
of all notes goes on to hold as long as it holds of each that is written.

* `Noted` : something holds of all statistics, and something of the costs of all winners;
* `Noted.modifyGroup` : a change of a group keeps it if it does so there;
* `keeps_noted_add`, `keeps_noted_addTo` : so do the operations.
-/
import QueryPlanner.Proofs.Memo.Edits

namespace QueryPlanner

variable {ν : Type}

/-- Something holds of the statistics of a group, and something of the costs of its winners. -/
structure Group.IsNoted (S : Statistics ν → Prop) (W : ν → Prop) (group : Group ν) : Prop where
  statistics : ∀ x, group.statistics = some x → S x
  winners : ∀ entry ∈ group.winners, W entry.2.cost

namespace Group.IsNoted

variable {S : Statistics ν → Prop} {W : ν → Prop} {group gone : Group ν}

/-- What is noted is all that counts. -/
theorem congr {other : Group ν} (h : group.IsNoted S W)
    (hstatistics : other.statistics = group.statistics) (hwinners : other.winners = group.winners) :
    other.IsNoted S W :=
  ⟨fun x hx => h.statistics x (hstatistics ▸ hx), fun entry he => h.winners entry (hwinners ▸ he)⟩

theorem of_none (hstatistics : group.statistics = none) (hwinners : group.winners = []) :
    group.IsNoted S W := by
  refine ⟨fun x hx => ?_, fun entry he => ?_⟩
  · rw [hstatistics] at hx
    cases hx
  · rw [hwinners] at he
    cases he

theorem require (h : group.IsNoted S W) (c : Convention) : (group.require c).IsNoted S W := by
  unfold Group.require
  split
  · exact h
  · exact h.congr rfl rfl

theorem withoutWinners (h : group.IsNoted S W) : group.withoutWinners.IsNoted S W :=
  ⟨h.statistics, fun _ he => absurd he List.not_mem_nil⟩

theorem absorbing (h : group.IsNoted S W) (hgone : gone.IsNoted S W) :
    (Group.absorbing gone group).IsNoted S W := by
  have hbase : ({ group with
      members := group.members ++ gone.members
      winners := []
      statistics := group.statistics.or gone.statistics } : Group ν).IsNoted S W := by
    refine ⟨fun x hx => ?_, fun _ he => absurd he List.not_mem_nil⟩
    rcases Option.or_eq_some_iff.mp hx with hx | ⟨-, hx⟩
    · exact h.statistics x hx
    · exact hgone.statistics x hx
  exact List.foldlRecOn (motive := IsNoted S W) _ _ hbase fun _ h c _ => h.require c

end Group.IsNoted

namespace Memo

variable {S : Statistics ν → Prop} {W : ν → Prop} {memo : Memo ν} {g : GroupId}

/-- Something holds of the statistics of all groups, and something of the costs of all winners. -/
def Noted (S : Statistics ν → Prop) (W : ν → Prop) (memo : Memo ν) : Prop :=
  ∀ (i : Nat) group, memo.groups[i]? = some group → group.IsNoted S W

theorem noted_empty : (empty : Memo ν).Noted S W := fun _ _ h => nomatch h

namespace Noted

/-- A group that does not exist has no notes. -/
theorem group (h : memo.Noted S W) (g : GroupId) : (memo.group g).IsNoted S W := by
  unfold Memo.group
  rcases hg : memo.groups[memo.leader g]? with _ | group
  · exact .of_none rfl rfl
  · exact h _ group hg

theorem winner (h : memo.Noted S W) {c : Convention} {w : Winner ν} (hw : memo.winner g c = some w) :
    W w.cost :=
  (h.group g).winners _ (Dictionary.mem_of_get?_eq_some hw)

theorem statisticsOf [Quantity ν] (h : memo.Noted S W) (hunknown : S .unknown) (g : GroupId) :
    S (memo.statisticsOf g) := by
  unfold Memo.statisticsOf
  rcases hg : (memo.group g).statistics with _ | x
  · exact hunknown
  · exact (h.group g).statistics x hg

/-- A change of a group keeps what it keeps there. -/
theorem modifyGroup (h : memo.Noted S W) (g : GroupId) {f : Group ν → Group ν}
    (hf : ∀ group : Group ν, group.IsNoted S W → (f group).IsNoted S W) :
    (memo.modifyGroup g f).Noted S W := by
  intro i group hi
  unfold Memo.modifyGroup at hi
  rw [Array.getElem?_modify] at hi
  split at hi
  · obtain ⟨old, hold, rfl⟩ := Option.map_eq_some_iff.mp hi
    exact hf old (h i old hold)
  · exact h i group hi

theorem pushGroup (h : memo.Noted S W) (t : RowType) : (memo.pushGroup t).Noted S W := by
  intro i group hi
  unfold Memo.pushGroup at hi
  rw [Array.getElem?_push] at hi
  split at hi
  · cases hi
    exact .of_none rfl rfl
  · exact h i group hi

theorem pushMember (h : memo.Noted S W) (g : GroupId) (op : Operator) (c : Convention)
    (children : List GroupId) (inputs : List Convention) :
    (memo.pushMember g op c children inputs).Noted S W :=
  h.modifyGroup g fun _ hgroup => hgroup.congr rfl rfl

theorem absorb (h : memo.Noted S W) (root victim : GroupId) : (memo.absorb root victim).Noted S W := by
  have hemptied : (memo.modifyGroup victim Group.emptied).Noted S W :=
    h.modifyGroup victim fun _ _ => .of_none rfl rfl
  exact hemptied.modifyGroup root fun _ hgroup => hgroup.absorbing (h.group victim)

end Noted

theorem keeps_noted_merge (a b : GroupId) (origin : String) :
    Keeps (Noted S W) (merge a b origin : Edit ν Unit) :=
  keeps_merge_of_absorb (fun _ h => h) (fun _ root victim h => h.absorb root victim) a b origin

theorem keeps_noted_add (op : Operator) (c : Convention) (children : List GroupId)
    (inputs : List Convention) : Keeps (Noted S W) (add op c children inputs : Edit ν _) :=
  keeps_add_of_push (fun _ t _ h => (h.pushGroup t).pushMember _ _ _ _ _) children

theorem keeps_noted_addTo (g : GroupId) (op : Operator) (c : Convention) (children : List GroupId)
    (inputs : List Convention) (origin : String) :
    Keeps (Noted S W) (addTo g op c children inputs origin : Edit ν MemberId) :=
  keeps_addTo_of_push (fun _ _ _ h => h.pushMember _ _ _ _ _) keeps_noted_merge g children origin

end Memo

end QueryPlanner
