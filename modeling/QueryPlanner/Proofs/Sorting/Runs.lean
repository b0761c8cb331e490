/-
# Runs and partitions

Sorting looks for runs, merges them, and partitions what is in none. Every part of it rearranges the
elements, whatever the comparison is. For a comparison that is that of an order none of them gives up,
and those that are the same stay in order, until all elements are sorted.

* `Sorting.Gives` : an outcome that is one of some kind, or none, where the comparison is no order;
* `Sorting.Arranges` : elements in another order, and sorted by a comparison that is that of an order;
* `Sorting.gives_mergeRuns`, `Sorting.gives_partitionSort` : the two ways to sort many elements;
* `Sorting.sort_perm`, `Sorting.exists_sort` : what sorting comes to.
-/
import Mathlib.Data.List.Chain
import QueryPlanner.Proofs.Sorting.Merging

namespace QueryPlanner

namespace Sorting

variable {α β γ : Type} {lt : α → α → Bool} {l l₁ l₂ m m₁ m₂ rest : List α} {n : Nat}

/-! ## Outcomes -/

/-- An outcome of some kind. There may be none, but only if the comparison is not that of an order. -/
def Gives (lt : α → α → Bool) (P : β → Prop) : Option β → Prop
  | some b => P b
  | none => ¬ IsWeakOrder lt

/-- What follows on an outcome has one, if it has one in each case. -/
theorem Gives.bind {P : β → Prop} {Q : γ → Prop} {x : Option β} {f : β → Option γ}
    (h : Gives lt P x) (hf : ∀ b, P b → Gives lt Q (f b)) : Gives lt Q (x >>= f) := by
  cases x with
  | none => exact h
  | some b => exact hf b h

theorem Gives.mono {P Q : β → Prop} {x : Option β} (h : Gives lt P x) (hPQ : ∀ b, P b → Q b) :
    Gives lt Q x := by
  cases x with
  | none => exact h
  | some b => exact hPQ b h

/-- Elements in another order, in which those that are the same stay in order, if the comparison is that
of one. -/
structure Rearranges (lt : α → α → Bool) (l m : List α) : Prop where
  perm : m.Perm l
  keeps : IsWeakOrder lt → Keeps lt l m

/-- Elements that are sorted, if the comparison is that of an order. -/
structure Arranges (lt : α → α → Bool) (l m : List α) : Prop extends Rearranges lt l m where
  ordered : IsWeakOrder lt → IsOrdered lt m

namespace Rearranges

theorem refl (l : List α) : Rearranges lt l l := ⟨.refl l, fun _ => .refl l⟩

theorem of_eq (h : l = m) : Rearranges lt l m := h ▸ refl l

theorem trans (h : Rearranges lt l l₁) (h' : Rearranges lt l₁ m) : Rearranges lt l m :=
  ⟨h'.perm.trans h.perm, fun horder => (h.keeps horder).trans (h'.keeps horder)⟩

theorem append (h₁ : Rearranges lt l₁ m₁) (h₂ : Rearranges lt l₂ m₂) :
    Rearranges lt (l₁ ++ l₂) (m₁ ++ m₂) :=
  ⟨h₁.perm.append h₂.perm, fun horder => (h₁.keeps horder).append (h₂.keeps horder)⟩

end Rearranges

theorem Arranges.of_rearranges (h : Arranges lt l₁ m) (h' : Rearranges lt l l₁) : Arranges lt l m :=
  ⟨h'.trans h.toRearranges, h.ordered⟩

theorem arranges_of_sorts (hperm : m.Perm l) (h : IsWeakOrder lt → Sorts lt l m) : Arranges lt l m :=
  ⟨⟨hperm, fun horder => (h horder).toKeeps⟩, fun horder => (h horder).ordered⟩

theorem Arranges.sorts (h : Arranges lt l m) (horder : IsWeakOrder lt) : Sorts lt l m :=
  ⟨h.keeps horder, h.ordered horder⟩

/-- A block is sorted. -/
theorem gives_sortBlock (lt : α → α → Bool) (block : List α) :
    Gives lt (Arranges lt block) (sortBlock lt block) := by
  cases hout : sortBlock lt block with
  | none =>
      intro h
      obtain ⟨out, hsome, -⟩ := sorts_sortBlock h block
      cases hout.symm.trans hsome
  | some out =>
      refine arranges_of_sorts (sortBlock_perm hout) fun h => ?_
      obtain ⟨out', hsome, hsorts⟩ := sorts_sortBlock h block
      cases hout.symm.trans hsome
      exact hsorts

/-! ## Runs at the front -/

/-- The elements at the front each of which stands in a relation to the one before it. -/
theorem chain_eq (r : α → α → Bool) (before : α) (l : List α) :
    l = (chain r before l).1 ++ (chain r before l).2 ∧
      (before :: (chain r before l).1).IsChain fun x y => r y x = true := by
  induction l generalizing before with
  | nil => exact ⟨rfl, .singleton before⟩
  | cons x l ih =>
      unfold chain
      split
      · next hx =>
        obtain ⟨heq, hchain⟩ := ih x
        exact ⟨congrArg (x :: ·) heq, .cons_cons hx hchain⟩
      · exact ⟨rfl, .singleton before⟩

/-- Elements in the opposite order, none of which are the same, may be turned round. -/
theorem sorts_reverse (h : IsWeakOrder lt) (hl : l.Pairwise fun x y => lt y x = true) :
    Sorts lt l l.reverse := by
  refine ⟨?_, List.pairwise_reverse.mpr (hl.imp fun hyx => h.asymm _ _ hyx)⟩
  induction l with
  | nil => exact .refl []
  | cons x l ih =>
      obtain ⟨hx, hl⟩ := List.pairwise_cons.mp hl
      rw [List.reverse_cons]
      refine Keeps.trans ((ih hl).append_left [x]) (keeps_swap h fun a ha b hb => ?_)
      obtain rfl := List.mem_singleton.mp ha
      exact hx b (List.mem_reverse.mp hb)

/-- The run at the front is in order. -/
theorem exists_frontRun (lt : α → α → Bool) (l : List α) : ∃ l₁,
    l = l₁ ++ (frontRun lt l).2 ∧ Arranges lt l₁ (frontRun lt l).1 := by
  unfold frontRun
  split
  · next a b l =>
    split
    · obtain ⟨heq, hchain⟩ := chain_eq lt b l
      next hba =>
      refine ⟨a :: b :: (chain lt b l).1, congrArg (a :: b :: ·) heq, ?_⟩
      refine arranges_of_sorts (List.reverse_perm _) fun h => sorts_reverse h ?_
      have : IsTrans α fun x y => lt y x = true := ⟨fun x y z hyx hzy => h.lt_trans hzy hyx⟩
      exact List.isChain_iff_pairwise.mp (.cons_cons hba hchain)
    · obtain ⟨heq, hchain⟩ := chain_eq (fun x before => !lt x before) b l
      next hba =>
      refine ⟨a :: b :: (chain (fun x before => !lt x before) b l).1,
        congrArg (a :: b :: ·) heq, arranges_of_sorts (.refl _) fun h => .refl ?_⟩
      have : IsTrans α fun x y => lt y x = false := ⟨fun x y z => h.trans x y z⟩
      refine List.isChain_iff_pairwise.mp (.cons_cons (Bool.eq_false_iff.mpr hba) ?_)
      exact hchain.imp fun _ _ hxy => Bool.not_eq_true' _ ▸ hxy
  · next hshort =>
    refine ⟨l, (List.append_nil l).symm, arranges_of_sorts (.refl l) fun _ => .refl ?_⟩
    match l, hshort with
    | [], _ => exact .nil
    | [a], _ => exact List.pairwise_singleton _ a
    | a :: b :: l, hshort => exact absurd rfl (hshort a b l)

/-! ## Runs -/

/-- A run that says so is sorted. -/
def Run.IsValid (lt : α → α → Bool) (run : Run α) : Prop :=
  run.isSorted = true → IsWeakOrder lt → IsOrdered lt run.elements

/-- The elements of several runs. -/
def elementsOf (rs : List (Run α)) : List α := rs.flatMap Run.elements

theorem Run.isValid_of_arranges {isSorted : Bool} (h : Arranges lt l m) :
    Run.IsValid lt ⟨m, isSorted⟩ := fun _ => h.ordered

/-- The first run is valid, and is not empty. -/
theorem gives_nextRun (lt : α → α → Bool) (eager : Bool) {enough : Nat} (henough : 0 < enough)
    (hl : l ≠ []) :
    Gives lt (fun out => Rearranges lt l (out.1.elements ++ out.2) ∧ out.1.IsValid lt ∧
      out.2.length < l.length) (nextRun lt eager enough l) := by
  have hpos := List.length_pos_iff.mpr hl
  unfold nextRun
  obtain ⟨l₁, heq, hrun⟩ := exists_frontRun lt l
  dsimp only
  split
  · next hlong =>
    have hlength := congrArg List.length heq
    rw [List.length_append, ← hrun.perm.length_eq] at hlength
    refine ⟨?_, Run.isValid_of_arranges hrun, by dsimp only; omega⟩
    exact (Rearranges.of_eq heq).trans (hrun.toRearranges.append (.refl _))
  · split
    · refine (gives_sortBlock lt (l.take blockLimit)).bind fun block hblock => ?_
      refine ⟨?_, Run.isValid_of_arranges hblock, ?_⟩
      · refine (Rearranges.of_eq (List.take_append_drop blockLimit l).symm).trans ?_
        exact hblock.toRearranges.append (.refl _)
      · show (l.drop 32).length < l.length
        rw [List.length_drop]
        omega
    · refine ⟨.of_eq (List.take_append_drop enough l).symm, nofun, ?_⟩
      show (l.drop enough).length < l.length
      rw [List.length_drop]
      omega

/-- All elements are in runs. -/
theorem gives_runs (lt : α → α → Bool) (eager : Bool) {enough : Nat} (henough : 0 < enough)
    (hn : l.length ≤ n) :
    Gives lt (fun rs => Rearranges lt l (elementsOf rs) ∧ ∀ run ∈ rs, run.IsValid lt)
      (runs lt eager enough n l) := by
  induction n generalizing l with
  | zero =>
      obtain rfl := List.eq_nil_of_length_eq_zero (Nat.le_zero.mp hn)
      exact ⟨.refl [], nofun⟩
  | succ n ih =>
      cases l with
      | nil => exact ⟨.refl [], nofun⟩
      | cons x l =>
          refine (gives_nextRun lt eager henough (List.cons_ne_nil x l)).bind ?_
          rintro ⟨run, rest⟩ ⟨hrun, hvalid, hlength⟩
          refine Gives.bind (ih (l := rest) (by dsimp only at hlength; omega)) ?_
          rintro others ⟨hothers, hall⟩
          exact ⟨hrun.trans (.append (.refl _) hothers), List.forall_mem_cons.mpr ⟨hvalid, hall⟩⟩

theorem nearRoot_pos (hn : 2 ≤ n) : 0 < nearRoot n := by
  have hle : n ≤ n ||| 1 := Nat.left_le_or
  have hlog : 1 ≤ (n ||| 1).log2 := (Nat.le_log2 (by omega)).mpr (by omega)
  have hpow : 2 ^ 1 ≤ 2 ^ ((1 + (n ||| 1).log2) / 2) :=
    Nat.pow_le_pow_right (by omega) (by omega)
  unfold nearRoot
  dsimp only
  rw [Nat.one_shiftLeft]
  exact Nat.div_pos (Nat.le_add_right_of_le hpow) Nat.two_pos

theorem enoughFor_pos (hn : 0 < n) : 0 < enoughFor n := by
  unfold enoughFor
  split
  · omega
  · exact nearRoot_pos (by omega)

/-! ## Merging runs -/

section Merging

variable {quick : List α → Option (List α)}

/-- A run is sorted. -/
theorem Run.gives_sort (hquick : ∀ l, Gives lt (Arranges lt l) (quick l)) {run : Run α}
    (h : run.IsValid lt) : Gives lt (Arranges lt run.elements) (run.sort quick) := by
  unfold Run.sort
  split
  · next hsorted => exact ⟨.refl _, h hsorted⟩
  · exact hquick run.elements

/-- Two runs are merged. -/
theorem Run.gives_merge (hquick : ∀ l, Gives lt (Arranges lt l) (quick l)) {left right : Run α}
    (hleft : left.IsValid lt) (hright : right.IsValid lt) (room : Nat) :
    Gives lt (fun run => Rearranges lt (left.elements ++ right.elements) run.elements ∧
      run.IsValid lt) (left.merge lt quick room right) := by
  unfold Run.merge
  split
  · exact ⟨.refl _, nofun⟩
  · refine (Run.gives_sort hquick hleft).bind fun l hl => ?_
    refine (Run.gives_sort hquick hright).bind fun r hr => ?_
    have hmerge : Arranges lt (l ++ r) (Sorting.merge lt l r) := arranges_of_sorts (merge_perm lt l r)
      fun h => sorts_merge h (hl.ordered h) (hr.ordered h)
    exact ⟨(hl.toRearranges.append hr.toRearranges).trans hmerge.toRearranges,
      Run.isValid_of_arranges hmerge⟩

/-- The elements that wait, in their places. -/
def Waiting.elements (waiting : Waiting α) : List α := elementsOf (waiting.reverse.map Prod.fst)

theorem Waiting.elements_cons (run : Run α) (depth : Nat) (waiting : Waiting α) :
    Waiting.elements ((run, depth) :: waiting) = Waiting.elements waiting ++ run.elements := by
  unfold Waiting.elements elementsOf
  simp

/-- Runs that are merged first are put in place. -/
theorem gives_collapse (hquick : ∀ l, Gives lt (Arranges lt l) (quick l)) (room depth : Nat)
    {run : Run α} {waiting : Waiting α} (hrun : run.IsValid lt)
    (hwaiting : ∀ w ∈ waiting, w.1.IsValid lt) :
    Gives lt (fun out => Rearranges lt (waiting.elements ++ run.elements)
        (out.2.elements ++ out.1.elements) ∧ out.1.IsValid lt ∧ ∀ w ∈ out.2, w.1.IsValid lt)
      (collapse lt quick room depth run waiting) := by
  induction waiting generalizing run with
  | nil => exact ⟨.refl _, hrun, nofun⟩
  | cons w waiting ih =>
      obtain ⟨left, leftDepth⟩ := w
      obtain ⟨hleft, hrest⟩ := List.forall_mem_cons.mp hwaiting
      unfold collapse
      split
      · refine (Run.gives_merge hquick hleft hrun room).bind ?_
        rintro merged ⟨hmerged, hvalid⟩
        refine (ih hvalid hrest).mono ?_
        rintro out ⟨hout, hvalid⟩
        refine ⟨Rearranges.trans ?_ hout, hvalid⟩
        rw [Waiting.elements_cons, List.append_assoc]
        exact .append (.refl _) hmerged
      · exact ⟨.refl _, hrun, hwaiting⟩

/-- Once the depth is that of the root, no run waits. -/
theorem eq_nil_of_collapse {room : Nat} {run all : Run α} {waiting waiting' : Waiting α}
    (h : collapse lt quick room 0 run waiting = some (all, waiting')) : waiting' = [] := by
  induction waiting generalizing run with
  | nil =>
      cases h
      rfl
  | cons w waiting ih =>
      unfold collapse at h
      rw [if_pos (Nat.zero_le _)] at h
      obtain ⟨merged, -, hmerged⟩ := Option.bind_eq_some_iff.mp h
      exact ih hmerged

/-- Runs are merged into one. -/
theorem gives_mergeRuns (hquick : ∀ l, Gives lt (Arranges lt l) (quick l)) (length position : Nat)
    {run : Run α} {waiting : Waiting α} {rs : List (Run α)} (hrun : run.IsValid lt)
    (hwaiting : ∀ w ∈ waiting, w.1.IsValid lt) (hrs : ∀ run ∈ rs, run.IsValid lt) :
    Gives lt (fun all => Rearranges lt (waiting.elements ++ run.elements ++ elementsOf rs)
      all.elements ∧ all.IsValid lt) (mergeRuns lt quick length position run waiting rs) := by
  induction rs generalizing position run waiting with
  | nil =>
      have hcollapse := gives_collapse hquick (roomFor length) 0 hrun hwaiting
      unfold mergeRuns
      cases hout : collapse lt quick (roomFor length) 0 run waiting with
      | none =>
          rw [hout] at hcollapse
          exact hcollapse
      | some out =>
          obtain ⟨all, waiting'⟩ := out
          obtain rfl := eq_nil_of_collapse hout
          rw [hout] at hcollapse
          obtain ⟨hall, hvalid, -⟩ := hcollapse
          refine ⟨Rearranges.trans (.of_eq ?_) hall, hvalid⟩
          exact List.append_nil _
  | cons next rs ih =>
      obtain ⟨hnext, hrest⟩ := List.forall_mem_cons.mp hrs
      refine (gives_collapse hquick (roomFor length) _ hrun hwaiting).bind ?_
      rintro ⟨merged, waiting'⟩ ⟨hmerged, hvalid, hwaiting'⟩
      refine Gives.mono (ih _ hnext (List.forall_mem_cons.mpr ⟨hvalid, hwaiting'⟩) hrest) ?_
      rintro all ⟨hall, hvalid⟩
      refine ⟨Rearranges.trans ?_ hall, hvalid⟩
      rw [Waiting.elements_cons, List.append_assoc (Waiting.elements waiting' ++ merged.elements)]
      exact hmerged.append (.refl _)

/-- Elements are sorted by runs. -/
theorem gives_sortRuns (hquick : ∀ l, Gives lt (Arranges lt l) (quick l)) (eager : Bool)
    (l : List α) : Gives lt (Arranges lt l) (sortRuns lt quick eager l) := by
  cases l with
  | nil =>
      exact arranges_of_sorts (.refl []) fun _ => .refl .nil
  | cons x l =>
      have henough : 0 < enoughFor (x :: l).length := enoughFor_pos (Nat.succ_pos l.length)
      refine (gives_runs lt eager henough (le_refl (x :: l).length)).bind ?_
      rintro rs ⟨hrs, hvalid⟩
      cases rs with
      | nil => exact arranges_of_sorts hrs.perm fun h => ⟨hrs.keeps h, .nil⟩
      | cons run rs =>
          obtain ⟨hrun, hrest⟩ := List.forall_mem_cons.mp hvalid
          refine (gives_mergeRuns hquick _ _ hrun (List.forall_mem_nil _) hrest).bind ?_
          rintro all ⟨hall, hvalid⟩
          exact (Run.gives_sort hquick hvalid).mono fun out hout =>
            hout.of_rearranges (hrs.trans hall)

end Merging

/-! ## Partitions -/

/-- Elements that are all below the others may come first. -/
theorem keeps_filter (h : IsWeakOrder lt) (l : List α) {p : α → Bool}
    (hlt : ∀ x y, p x = true → p y = false → lt x y = true) :
    Keeps lt l (l.filter p ++ l.filter fun x => !p x) := by
  induction l with
  | nil => exact .refl []
  | cons x l ih =>
      cases hx : p x with
      | true =>
          rw [List.filter_cons_of_pos hx, List.filter_cons_of_neg (by simp [hx])]
          exact ih.append_left [x]
      | false =>
          rw [List.filter_cons_of_neg (by simp [hx]), List.filter_cons_of_pos (by simp [hx])]
          -- the element is behind those that come first, which are all below it
          refine (ih.append_left [x]).trans ?_
          rw [← List.append_assoc, List.append_cons]
          refine (keeps_swap h fun a ha b hb => ?_).append_right _
          obtain rfl := List.mem_singleton.mp ha
          exact hlt b a (List.mem_filter.mp hb).2 hx

/-- A partition rearranges elements, if all that come first are below the others. -/
theorem rearranges_filter (l : List α) {p : α → Bool}
    (hlt : IsWeakOrder lt → ∀ x y, p x = true → p y = false → lt x y = true) :
    Rearranges lt l (l.filter p ++ l.filter fun x => !p x) :=
  ⟨List.filter_append_perm p l, fun h => keeps_filter h l (hlt h)⟩

/-- Two parts of a partition that are sorted. -/
theorem Arranges.append (h₁ : Arranges lt l₁ m₁) (h₂ : Arranges lt l₂ m₂)
    (hle : IsWeakOrder lt → ∀ a ∈ l₁, ∀ b ∈ l₂, lt b a = false) :
    Arranges lt (l₁ ++ l₂) (m₁ ++ m₂) :=
  arranges_of_sorts (h₁.perm.append h₂.perm) fun h => (h₁.sorts h).append (h₂.sorts h) (hle h)

section Partitions

variable {p : α}

/-- What is below a pivot comes first. -/
theorem Arranges.partition (hleft : Arranges lt (l.filter fun x => lt x p) m₁)
    (hright : Arranges lt (l.filter fun x => !lt x p) m₂) : Arranges lt l (m₁ ++ m₂) := by
  refine (hleft.append hright fun h a ha b hb => ?_).of_rearranges (rearranges_filter l ?_)
  · have hap := (List.mem_filter.mp ha).2
    have hbp : lt b p = false := by simpa using (List.mem_filter.mp hb).2
    exact h.asymm a b (h.lt_of_lt_of_le hap hbp)
  · exact fun h x y hx hy => h.lt_of_lt_of_le hx hy

/-- What is the same as a pivot that is one of the least elements comes first. -/
theorem Arranges.partition_least (hleast : IsWeakOrder lt → ∀ x ∈ l, lt x p = false)
    (hrest : Arranges lt (l.filter fun x => lt p x) m) :
    Arranges lt l ((l.filter fun x => !lt p x) ++ m) := by
  have hfirst : Arranges lt (l.filter fun x => !lt p x) (l.filter fun x => !lt p x) := by
    refine arranges_of_sorts (.refl _) fun h => .refl ?_
    refine List.pairwise_of_forall_mem_list fun a ha b hb => ?_
    have hpa : lt p a = false := by simpa using (List.mem_filter.mp ha).2
    exact h.trans a p b hpa (hleast h b (List.mem_filter.mp hb).1)
  refine (hfirst.append hrest fun h a ha b hb => ?_).of_rearranges ?_
  · have hpa : lt p a = false := by simpa using (List.mem_filter.mp ha).2
    exact h.asymm a b (h.lt_of_le_of_lt hpa (List.mem_filter.mp hb).2)
  · have hfilter : Rearranges lt l
        ((l.filter fun x => !lt p x) ++ l.filter fun x => !!lt p x) :=
      rearranges_filter l fun h x y hx hy => h.lt_of_le_of_lt (by simpa using hx) (by simpa using hy)
    simpa only [Bool.not_not] using hfilter

/-- Elements are sorted by partitioning them. -/
theorem gives_partitionSort (lt : α → α → Bool) (limit : Nat) (least : Option α) (l : List α)
    (hleast : ∀ a ∈ least, IsWeakOrder lt → ∀ x ∈ l, lt x a = false) :
    Gives lt (Arranges lt l) (partitionSort lt limit least l) := by
  have hnil : Arranges lt ([] : List α) [] := arranges_of_sorts (.refl []) fun _ => .refl .nil
  induction limit generalizing least l with
  | zero =>
      cases l with
      | nil => exact hnil
      | cons x l =>
          unfold partitionSort
          dsimp only
          split
          · exact gives_sortBlock lt (x :: l)
          · exact gives_sortRuns (gives_sortBlock lt) true (x :: l)
  | succ limit ih =>
      cases l with
      | nil => exact hnil
      | cons first l =>
          unfold partitionSort
          dsimp only
          split
          · exact gives_sortBlock lt (first :: l)
          · generalize pivot lt first (first :: l) 0 ((first :: l).length / 8) = p
            generalize first :: l = l at *
            split
            · next hequal =>
              refine (ih none _ nofun).bind fun rest hrest => Arranges.partition_least ?_ hrest
              intro h x hx
              rcases (Bool.or_eq_true _ _).mp hequal with hempty | hany
              · by_contra hxp
                have hmem : x ∈ l.filter fun x => lt x p :=
                  List.mem_filter.mpr ⟨hx, Bool.of_not_eq_false hxp⟩
                rw [List.isEmpty_iff.mp hempty] at hmem
                exact absurd hmem List.not_mem_nil
              · obtain ⟨a, ha, hap⟩ := (Option.any_eq_true _ _).mp hany
                exact h.trans p a x (by simpa using hap) (hleast a ha h x hx)
            · refine Gives.bind (ih (some p) _ fun a ha h x hx => ?_) fun right hright => ?_
              · cases ha
                simpa using (List.mem_filter.mp hx).2
              · refine Gives.bind (ih least _ fun a ha h x hx => ?_) fun left hleft => ?_
                · exact hleast a ha h x (List.mem_filter.mp hx).1
                · exact hleft.partition hright

end Partitions

/-! ## Sorting -/

theorem gives_sort (lt : α → α → Bool) (l : List α) : Gives lt (Arranges lt l) (sort lt l) := by
  unfold sort
  split
  · exact arranges_of_sorts (insertAll_perm lt [] l) fun h => sorts_insertAll h .nil l
  · exact gives_sortRuns (fun l => gives_partitionSort lt _ none l nofun) _ l

/-- Whatever the comparison is, sorting does not lose elements. -/
theorem sort_perm (h : sort lt l = some m) : m.Perm l := by
  have hgives := gives_sort lt l
  rw [h] at hgives
  exact hgives.perm

/-- Elements are sorted by a comparison that is that of an order. -/
theorem exists_sort (h : IsWeakOrder lt) (l : List α) :
    ∃ m, sort lt l = some m ∧ Sorts lt l m := by
  have hgives := gives_sort lt l
  cases hm : sort lt l with
  | none =>
      rw [hm] at hgives
      exact absurd h hgives
  | some m =>
      rw [hm] at hgives
      exact ⟨m, rfl, hgives.sorts h⟩

/-- A few elements can be sorted whatever the comparison is. -/
theorem sort_ne_none (lt : α → α → Bool) (h : l.length ≤ insertionLimit) : sort lt l ≠ none := by
  unfold sort
  rw [if_pos h]
  nofun

end Sorting

end QueryPlanner
