/-
# The shapes of groups

Where all members of a group are of one shape, so are all groups that are merged: members of the
same key have the same shape over inputs of the same shapes. Adding a member of the shape of its
group is then never refused, and keeps the shapes of all groups.

* `IsShaped` : a memo all groups of which have shapes;
* `IsShaped.den_leader_of_merged` : merges are of groups of the same shape;
* `IsShaped.exists_addTo`, `IsShaped.exists_addLogical` : members of the right shape are added.
-/
import QueryPlanner.Proofs.Memo.Progress
import QueryPlanner.Proofs.Shape

namespace QueryPlanner

namespace Memo

variable {ν : Type} {memo before after : Memo ν} {den den' : GroupId → Shape} {g : GroupId}
  {op : Operator} {c : Convention} {children : List GroupId} {inputs : List Convention}

/-- A memo all groups of which have shapes: the row type of a group is that of its shape, and all
members of it are of its shape. -/
structure IsShaped (den : GroupId → Shape) (memo : Memo ν) : Prop where
  leader : ∀ g, den (memo.leader g) = den g
  rowType : ∀ g < memo.groups.size, (memo.group g).rowType = (den g).rowType
  member : ∀ m < memo.members.size, Operator.Shapes (memo.member m).op
    ((memo.member m).children.map den) (den (memo.member m).group)

theorem isShaped_empty (den : GroupId → Shape) : (empty : Memo ν).IsShaped den where
  leader g := by rw [leader_of_none (by simp [empty])]
  rowType g hg := absurd hg (Nat.not_lt_zero g)
  member m hm := absurd hm (Nat.not_lt_zero m)

/-- Inputs read through their leaders have the same shapes. -/
theorem IsShaped.map_leader (h : memo.IsShaped den) (gs : List GroupId) :
    (gs.map memo.leader).map den = gs.map den := by
  rw [List.map_map]
  exact List.map_congr_left fun g _ => h.leader g

/-- The shapes that groups have, they keep as the memo grows, if none of another shape is merged
with them, and new members are of the shape of their groups. -/
theorem IsShaped.of_growsTo (h : before.IsShaped den) (hbefore : before.Settled)
    (hgrows : before.GrowsTo after) (hagree : ∀ g < before.groups.size, den' g = den g)
    (hleader : ∀ g, den' (after.leader g) = den' g)
    (hrowType : ∀ g, before.groups.size ≤ g → g < after.groups.size →
      (after.group g).rowType = (den' g).rowType)
    (hnew : ∀ m, before.members.size ≤ m → m < after.members.size →
      Operator.Shapes (after.member m).op ((after.member m).children.map den')
        (den' (after.member m).group)) : after.IsShaped den' where
  leader := hleader
  rowType g hg := by
    rcases Nat.lt_or_ge g before.groups.size with hlt | hge
    · rw [hgrows.rowType g hlt, h.rowType g hlt, hagree g hlt]
    · exact hrowType g hge hg
  member m hm := by
    rcases Nat.lt_or_ge m before.members.size with hlt | hge
    · have hfits := (hbefore.member m hlt).1
      have hchildren : ((before.member m).children.map after.leader).map den' =
          (before.member m).children.map den := by
        rw [List.map_map]
        exact List.map_congr_left fun g hg => (hleader g).trans (hagree g (hfits.children_lt g hg))
      rw [hgrows.op_eq hlt, hgrows.children_eq hlt, hgrows.group_eq hlt, hchildren, hleader,
        hagree _ (hfits.group_lt hbefore.led)]
      exact h.member m hlt
    · exact hnew m hge hm

/-! ## Merges -/

/-- Having the same shape is a congruence. -/
theorem IsShaped.isCongruence (h : memo.IsShaped den) {a b : GroupId} (hab : den a = den b) :
    memo.IsCongruence a b fun x y => den x = den y where
  equivalence := ⟨fun _ => rfl, Eq.symm, Eq.trans⟩
  same x y hxy := by rw [← h.leader x, hxy, h.leader]
  pair := hab
  members m hm m' hm' hop _ _ hchildren := by
    have hinputs : (memo.member m).children.map den = (memo.member m').children.map den := by
      rwa [← List.forall₂_eq_eq_eq, List.forall₂_map_left_iff, List.forall₂_map_right_iff]
    have hshape := h.member m hm
    rw [hinputs] at hshape
    exact hshape.eq_of_canonical_eq (h.member m' hm') hop

/-- So a group is only merged with groups of its shape. -/
theorem IsShaped.den_leader_of_merged (h : memo.IsShaped den) {a b : GroupId} (hab : den a = den b)
    (hmerged : memo.Merged a b after) (g : GroupId) : den (after.leader g) = den g :=
  hmerged.minimal _ (h.isCongruence hab) _ _ (hmerged.consistent.led.leader_leader g)

/-- Groups of the same row type can be merged. -/
theorem Settled.exists_merge (h : memo.Settled) {a b : GroupId} (ha : a < memo.groups.size)
    (hb : b < memo.groups.size) (htype : (memo.group a).rowType = (memo.group b).rowType)
    (origin : String) : ∃ after, (Memo.merge a b origin).run.run memo = (.ok (), after) ∧
      memo.Merged a b after := by
  rcases h.merge_cases ha hb origin with ⟨_, _, hfails⟩ | ⟨after, hrun, hmerged, -⟩
  · obtain ⟨between, hunion, hmerged, -⟩ :=
      (h.toConsistent.merged a b).exists_union ha hb htype (fun r hr => hr.pair) origin
    obtain ⟨after, hrebuild⟩ := hmerged.rebuild_ok origin (between.groups.size + 1)
    rw [run_merge, hunion] at hfails
    cases hfails.symm.trans hrebuild
  · exact ⟨after, hrun, hmerged⟩

/-! ## New members -/

section Add

variable {s : Shape}

/-- The row type that is derived for an operator is that of its shape. -/
theorem IsShaped.deriveRowType (h : memo.IsShaped den) (hlt : ∀ child ∈ children,
    child < memo.groups.size) (hlength : inputs.length = children.length)
    (hop : Operator.Shapes op (children.map den) s) :
    memo.deriveRowType op children inputs = .ok s.rowType := by
  have htypes : children.map (fun g => (memo.group g).rowType) =
      (children.map den).map Shape.rowType := by
    rw [List.map_map]
    exact List.map_congr_left fun g hg => h.rowType g (hlt g hg)
  unfold Memo.deriveRowType
  rw [if_neg (not_not_intro hlength), htypes, hop.deriveRowType]
  rfl

/-- So it is for an operator over the leaders of its inputs. -/
theorem IsShaped.deriveRowType_map_leader (h : memo.IsShaped den) (hled : memo.Led)
    (hlt : ∀ child ∈ children, child < memo.groups.size) (hlength : inputs.length = children.length)
    (hop : Operator.Shapes op (children.map den) s) :
    memo.deriveRowType op (children.map memo.leader) inputs = .ok s.rowType := by
  refine h.deriveRowType (fun x hx => ?_) (by rw [List.length_map, hlength]) (by rwa [h.map_leader])
  obtain ⟨child, hchild, rfl⟩ := List.mem_map.mp hx
  exact hled.leader_lt (hlt child hchild)

/-- The member that the index has for a key is of the shape of the key. -/
theorem IsShaped.den_group_of_index (h : memo.IsShaped den) (hs : memo.Settled)
    (hop : Operator.Shapes op (children.map den) s) {m : MemberId}
    (hm : memo.index.get? (.of op c (children.map memo.leader) inputs) = some m) :
    m < memo.members.size ∧ den (memo.member m).group = s := by
  obtain ⟨hlt, hkey⟩ := hs.knows _ _ hm
  unfold Member.key MemberKey.of at hkey
  obtain ⟨hchildren, -, -, hcanonical⟩ := MemberKey.mk.inj hkey
  have hshape := h.member m hlt
  rw [hchildren, h.map_leader] at hshape
  exact ⟨hlt, hshape.eq_of_canonical_eq hop hcanonical⟩

/-- An entry of an operator is of its shape, if all that stands for its group and its inputs is of
the shapes of these. -/
theorem IsEntry.shapes {m : Member} (hentry : memo.IsEntry g op c children inputs m)
    (hleader : ∀ g, den (memo.leader g) = den g)
    (hop : Operator.Shapes op (children.map den) (den g)) :
    Operator.Shapes m.op (m.children.map den) (den m.group) := by
  have hchildren : (children.map memo.leader).map den = children.map den := by
    rw [List.map_map]
    exact List.map_congr_left fun g _ => hleader g
  rw [hentry.op, hentry.children, hentry.group, hleader, hchildren]
  exact hop

variable (h : memo.IsShaped den) (hs : memo.Settled)
  (hlt : ∀ child ∈ children, child < memo.groups.size)

include h hs hlt

/-- A member of the shape of a group is added to it, with merges of groups of the same shape only. -/
theorem IsShaped.exists_addTo (hg : g < memo.groups.size)
    (hlength : inputs.length = children.length)
    (hop : Operator.Shapes op (children.map den) (den g)) (origin : String) :
    ∃ m after, Returns (addTo g op c children inputs origin) memo m after ∧ after.IsShaped den := by
  have hlead := hs.led.leader_lt hg
  have hleadType : (memo.group (memo.leader g)).rowType = (den g).rowType := by
    rw [h.rowType _ hlead, h.leader]
  have hruns : ∃ m after, Returns (addTo g op c children inputs origin) memo m after ∧
      ∀ g, den (after.leader g) = den g := by
    unfold Returns
    rw [run_addTo]
    rcases hindex : memo.index.get? (.of op c (children.map memo.leader) inputs) with _ | m
    · rw [h.deriveRowType_map_leader hs.led hlt hlength hop]
      dsimp only
      rw [if_neg (not_not_intro hleadType.symm)]
      exact ⟨_, _, rfl, h.leader⟩
    · obtain ⟨hm, hden⟩ := h.den_group_of_index hs hop hindex
      dsimp only
      split
      · have howner := (hs.member m hm).1.group_lt hs.led
        have htype : (memo.group (memo.member m).group).rowType =
            (memo.group (memo.leader g)).rowType := by
          rw [h.rowType _ howner, hden, hleadType]
        obtain ⟨after, hrun, hmerged⟩ := hs.exists_merge howner hlead htype origin
        rw [hrun]
        exact ⟨m, after, rfl, h.den_leader_of_merged (hden.trans (h.leader g).symm) hmerged⟩
      · exact ⟨m, memo, rfl, h.leader⟩
  obtain ⟨m, after, hrun, hleader⟩ := hruns
  obtain ⟨hadds, -, hsize⟩ := hs.returns_addTo hg hlt hrun
  refine ⟨m, after, hrun, h.of_growsTo hs hadds.toGrowsTo (fun _ _ => rfl) hleader
    (fun x hle hx => absurd (hsize ▸ hx) (Nat.not_lt_of_le hle)) fun m hle hm => ?_⟩
  exact (hadds.added m hle hm).shapes hleader hop

/-- An operator of any shape is added in a group of this shape, which is a new one if no group has
the operator already. -/
theorem IsShaped.exists_addLogical (hop : Operator.Shapes op (children.map den) s) :
    ∃ g after den', Returns (addLogical op children) memo g after ∧ after.IsShaped den' ∧
      (∀ x < memo.groups.size, den' x = den x) ∧ den' g = s := by
  have hadd : (add op .logical children (children.map fun _ => .logical)).run.run memo = _ :=
    run_add op .logical children (children.map fun _ => .logical) memo
  rcases hindex : memo.index.get? (.of op .logical (children.map memo.leader)
    (children.map fun _ => .logical)) with _ | m
  · rw [hindex, h.deriveRowType_map_leader hs.led hlt (List.length_map ..) hop] at hadd
    have hrun : Returns (addLogical op children) memo memo.groups.size
        ((memo.pushGroup s.rowType).pushMember memo.groups.size op .logical
          (children.map memo.leader) (children.map fun _ => .logical)) :=
      Returns.bind hadd (returns_pure.mpr ⟨rfl, rfl⟩)
    obtain ⟨hadds, -, -⟩ := hs.returns_addLogical hlt hrun
    -- the number of the new group stood for itself before, as it does now
    let den' : GroupId → Shape := fun x => if x = memo.groups.size then s else den x
    have hself : den' memo.groups.size = s := if_pos rfl
    have hagree : ∀ x < memo.groups.size, den' x = den x := fun x hx => if_neg (Nat.ne_of_lt hx)
    have hleader : ∀ x, den' (memo.leader x) = den' x := by
      intro x
      rcases Nat.lt_or_ge x memo.groups.size with hx | hx
      · rw [hagree _ (hs.led.leader_lt hx), hagree x hx, h.leader]
      · rw [leader_of_none (Array.getElem?_eq_none (hs.led.size.trans_le hx))]
    have hleader' : ∀ x, den' (((memo.pushGroup s.rowType).pushMember memo.groups.size op .logical
        (children.map memo.leader) (children.map fun _ => .logical)).leader x) = den' x := fun x =>
      (congrArg den' (hs.led.leader_pushGroup_eq s.rowType x)).trans (hleader x)
    have hop' : Operator.Shapes op (children.map den') (den' memo.groups.size) := by
      rw [hself, List.map_congr_left fun x hx => hagree x (hlt x hx)]
      exact hop
    have hsize : ((memo.pushGroup s.rowType).pushMember memo.groups.size op .logical
        (children.map memo.leader) (children.map fun _ => .logical)).groups.size =
        memo.groups.size + 1 := (Array.size_modify ..).trans (Array.size_push ..)
    refine ⟨_, _, den', hrun, h.of_growsTo hs hadds.toGrowsTo hagree hleader' (fun x hle hx => ?_)
      fun m hle hm => (hadds.added m hle hm).shapes hleader' hop', hagree, hself⟩
    obtain rfl : x = memo.groups.size := by omega
    rw [rowType_pushed hs.led, if_pos rfl, hself]
  · rw [hindex] at hadd
    obtain ⟨-, hden⟩ := h.den_group_of_index hs hop hindex
    exact ⟨_, memo, den, Returns.bind hadd (returns_pure.mpr ⟨rfl, rfl⟩), h, fun _ _ => rfl, hden⟩

end Add

end Memo

end QueryPlanner
