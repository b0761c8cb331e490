/-
# Sorting images

Sorting looks at elements through the comparison only. The images of elements are therefore sorted as
the elements are, if these are compared as their images are, and where one gives up, so does the other.

* `Sorting.sort_map` : sorting commutes with taking images;
* `Sorting.exists_sort_of_mem` : it is enough that the comparison is that of an order on the elements
  that are sorted;
* `Sorting.sort_forall₂` : elements that are compared alike are sorted alike.
-/
import Mathlib.Data.List.Forall2
import QueryPlanner.Proofs.Sorting.Runs

namespace QueryPlanner

namespace Sorting

variable {α β : Type} {lt : α → α → Bool} {lt' : β → β → Bool} {f : α → β}

/-! ## Insertion and merging -/

section Images

variable (h : ∀ a b, lt' (f a) (f b) = lt a b)

include h

theorem insert_map (x : α) (l : List α) : insert lt' (f x) (l.map f) = (insert lt x l).map f := by
  induction l with
  | nil => rfl
  | cons y l ih =>
      rw [List.map_cons, insert, insert, h, ih]
      split
      · rfl
      · rfl

theorem insertAll_map (l r : List α) :
    insertAll lt' (l.map f) (r.map f) = (insertAll lt l r).map f := by
  induction r generalizing l with
  | nil => rw [List.map_nil, insertAll_nil, insertAll_nil]
  | cons x r ih =>
      rw [List.map_cons, insertAll_cons, insertAll_cons, ← List.map_reverse, insert_map h,
        ← List.map_reverse, ih]

theorem mergeFront_map (n : Nat) (l r : List α) : mergeFront lt' n (l.map f) (r.map f) =
    (mergeFront lt n l r).map (List.map f) (Prod.map (List.map f) (List.map f)) := by
  induction n generalizing l r with
  | zero => rfl
  | succ n ih =>
      cases l with
      | nil => rfl
      | cons a l =>
          cases r with
          | nil => rfl
          | cons b r =>
              rw [List.map_cons, List.map_cons, mergeFront, mergeFront, h]
              split
              · rw [← List.map_cons, ih]
                rfl
              · rw [← List.map_cons, ih]
                rfl

theorem mergeFront_map_flip (n : Nat) (l r : List α) :
    mergeFront (fun a b => lt' b a) n (l.map f) (r.map f) =
      (mergeFront (fun a b => lt b a) n l r).map (List.map f) (Prod.map (List.map f) (List.map f)) :=
  @mergeFront_map α β (fun a b => lt b a) (fun a b => lt' b a) f (fun a b => h b a) n l r

theorem merge_map (l r : List α) : merge lt' (l.map f) (r.map f) = (merge lt l r).map f := by
  unfold merge
  simp only [List.length_map, ← List.map_reverse, mergeFront_map h, mergeFront_map_flip h]
  split
  · simp only [Prod.map_fst, Prod.map_snd, List.map_append]
  · simp only [Prod.map_fst, Prod.map_snd, List.map_append, List.map_reverse]

omit h in
theorem takeMiddle_map (f : α → β) (isOdd isLeft : Bool) (l r : List α) :
    takeMiddle isOdd isLeft (l.map f) (r.map f) =
      (takeMiddle isOdd isLeft l r).map (List.map f) (Prod.map (List.map f) (List.map f)) := by
  unfold takeMiddle
  split
  · rfl
  · rw [← List.map_take, ← List.map_drop]
    rfl
  · rw [← List.map_take, ← List.map_drop]
    rfl

theorem mergeHalves_map (l r : List α) :
    mergeHalves lt' (l.map f) (r.map f) = (mergeHalves lt l r).map (List.map f) := by
  unfold mergeHalves
  simp only [List.length_map, ← List.map_reverse, mergeFront_map h, mergeFront_map_flip h,
    takeMiddle_map, Prod.map_fst, Prod.map_snd]
  split
  · simp
  · rfl

theorem orderPair_map (a b : α) : orderPair lt' (f a) (f b) = (orderPair lt a b).map f := by
  unfold orderPair
  rw [h]
  split
  · rfl
  · rfl

theorem mergePairs_map (a b c d : α) :
    mergePairs lt' (f a) (f b) (f c) (f d) = (mergePairs lt a b c d).map f := by
  unfold mergePairs
  rw [h, h]
  split <;> simp [orderPair_map h]

theorem sortFour_map (a b c d : α) :
    sortFour lt' (f a) (f b) (f c) (f d) = (sortFour lt a b c d).map f := by
  have hpair : ∀ v w, (if lt' (f w) (f v) then (f w, f v) else (f v, f w)) =
      Prod.map f f (if lt w v then (w, v) else (v, w)) := by
    intro v w
    rw [h]
    split
    · rfl
    · rfl
  unfold sortFour
  rw [hpair, hpair]
  exact mergePairs_map h _ _ _ _

theorem sortHalf_map (enough : Bool) (half : List α) :
    sortHalf lt' enough (half.map f) = (sortHalf lt enough half).map f := by
  cases enough with
  | false => exact insertAll_map h [] half
  | true =>
      match half with
      | v₀ :: v₁ :: v₂ :: v₃ :: rest =>
          show insertAll lt' (sortFour lt' (f v₀) (f v₁) (f v₂) (f v₃)) (rest.map f) = _
          rw [sortFour_map h, insertAll_map h]
          rfl
      | [] | [_] | [_, _] | [_, _, _] => exact insertAll_map h [] _

theorem sortBlock_map (block : List α) :
    sortBlock lt' (block.map f) = (sortBlock lt block).map (List.map f) := by
  unfold sortBlock
  rw [List.length_map]
  split
  · rfl
  · simp only [← List.map_take, ← List.map_drop, sortHalf_map h, mergeHalves_map h]

/-! ## Runs -/

omit h in
/-- A run of the images. -/
def Run.map (f : α → β) (run : Run α) : Run β := ⟨run.elements.map f, run.isSorted⟩

omit h in
theorem chain_map {r : α → α → Bool} {r' : β → β → Bool} (h : ∀ a b, r' (f a) (f b) = r a b)
    (before : α) (l : List α) : chain r' (f before) (l.map f) =
      (chain r before l).map (List.map f) (List.map f) := by
  induction l generalizing before with
  | nil => rfl
  | cons x l ih =>
      rw [List.map_cons, chain, chain, h, ih]
      split
      · rfl
      · rfl

theorem frontRun_map (l : List α) :
    frontRun lt' (l.map f) = (frontRun lt l).map (List.map f) (List.map f) := by
  have hflip : ∀ a b, (!lt' (f a) (f b)) = !lt a b := fun a b => congrArg _ (h a b)
  match l with
  | [] | [_] => rfl
  | a :: b :: l =>
      rw [List.map_cons, List.map_cons, frontRun, frontRun, h, chain_map h,
        @chain_map α β f (fun x before => !lt x before) (fun x before => !lt' x before) hflip]
      split
      · simp
      · rfl

theorem nextRun_map (eager : Bool) (enough : Nat) (l : List α) :
    nextRun lt' eager enough (l.map f) =
      (nextRun lt eager enough l).map (Prod.map (Run.map f) (List.map f)) := by
  unfold nextRun
  simp only [frontRun_map h, Prod.map_fst, Prod.map_snd, List.length_map, ← List.map_take,
    ← List.map_drop, sortBlock_map h]
  split
  · rfl
  · split
    · cases sortBlock lt (l.take blockLimit) with
      | none => rfl
      | some block => rfl
    · rfl

theorem runs_map (eager : Bool) (enough n : Nat) (l : List α) :
    runs lt' eager enough n (l.map f) = (runs lt eager enough n l).map (List.map (Run.map f)) := by
  induction n generalizing l with
  | zero => rfl
  | succ n ih =>
      cases l with
      | nil => rfl
      | cons x l =>
          rw [List.map_cons, runs, runs, ← List.map_cons, nextRun_map h]
          cases nextRun lt eager enough (x :: l) with
          | none => rfl
          | some out =>
              obtain ⟨run, rest⟩ := out
              show (runs lt' eager enough n (rest.map f) >>= _) = _
              rw [ih]
              cases hrest : runs lt eager enough n rest with
              | none => simp [hrest]
              | some others => simp [hrest]

/-! ## Merging runs -/

section Merging

variable {quick : List α → Option (List α)} {quick' : List β → Option (List β)}
  (hquick : ∀ l, quick' (l.map f) = (quick l).map (List.map f))

/-- Runs of the images that wait. -/
def Waiting.map (f : α → β) (waiting : Waiting α) : Waiting β :=
  List.map (Prod.map (Run.map f) id) waiting

include hquick

omit h in
theorem Run.sort_map (run : Run α) :
    (run.map f).sort quick' = (run.sort quick).map (List.map f) := by
  unfold Run.sort
  show (if run.isSorted then _ else quick' (run.elements.map f)) = _
  rw [hquick]
  split
  · rfl
  · rfl

theorem Run.merge_map (room : Nat) (left right : Run α) :
    (left.map f).merge lt' quick' room (right.map f) =
      (left.merge lt quick room right).map (Run.map f) := by
  unfold Run.merge
  rw [Run.sort_map hquick, Run.sort_map hquick]
  simp only [Run.map, List.length_map]
  split
  · simp [Run.map]
  · cases left.sort quick with
    | none => rfl
    | some l =>
        cases right.sort quick with
        | none => rfl
        | some r => simp [Sorting.merge_map h, Run.map]

theorem collapse_map (room depth : Nat) (run : Run α) (waiting : Waiting α) :
    collapse lt' quick' room depth (run.map f) (Waiting.map f waiting) =
      (collapse lt quick room depth run waiting).map (Prod.map (Run.map f) (Waiting.map f)) := by
  induction waiting generalizing run with
  | nil => rfl
  | cons w waiting ih =>
      obtain ⟨left, leftDepth⟩ := w
      show collapse lt' quick' room depth (run.map f) ((left.map f, leftDepth) :: Waiting.map f waiting) = _
      rw [collapse, collapse, Run.merge_map h hquick]
      split
      · cases left.merge lt quick room run with
        | none => rfl
        | some merged => exact ih merged
      · rfl

theorem mergeRuns_map (length position : Nat) (run : Run α) (waiting : Waiting α)
    (rs : List (Run α)) :
    mergeRuns lt' quick' length position (run.map f) (Waiting.map f waiting)
        (rs.map (Run.map f)) =
      (mergeRuns lt quick length position run waiting rs).map (Run.map f) := by
  induction rs generalizing position run waiting with
  | nil =>
      rw [List.map_nil, mergeRuns, mergeRuns, collapse_map h hquick]
      cases collapse lt quick (roomFor length) 0 run waiting with
      | none => rfl
      | some out => rfl
  | cons next rs ih =>
      have hlength : ∀ run : Run α, (run.map f).elements.length = run.elements.length :=
        fun run => List.length_map f
      rw [List.map_cons, mergeRuns, mergeRuns]
      simp only [hlength, collapse_map h hquick]
      cases collapse lt quick (roomFor length) _ run waiting with
      | none => rfl
      | some out => exact ih _ next ((out.1, _) :: out.2)

theorem sortRuns_map (eager : Bool) (l : List α) :
    sortRuns lt' quick' eager (l.map f) = (sortRuns lt quick eager l).map (List.map f) := by
  unfold sortRuns
  rw [List.length_map, runs_map h]
  cases runs lt eager (enoughFor l.length) l.length l with
  | none => rfl
  | some rs =>
      cases rs with
      | nil => rfl
      | cons run rs =>
          have hmerge := mergeRuns_map h hquick l.length (run.map f).elements.length run [] rs
          show (mergeRuns lt' quick' l.length (run.map f).elements.length (run.map f)
            (Waiting.map f []) (rs.map (Run.map f)) >>= _) = _
          rw [hmerge, show (run.map f).elements.length = run.elements.length from List.length_map f]
          cases hall : mergeRuns lt quick l.length run.elements.length run [] rs with
          | none => simp [hall]
          | some all => simp [hall, Run.sort_map hquick]

end Merging

/-! ## Partitions -/

theorem middle_map (a b c : α) : middle lt' (f a) (f b) (f c) = f (middle lt a b c) := by
  unfold middle
  simp only [h]
  split
  · split
    · rfl
    · rfl
  · rfl

theorem pivot_map (first : α) (l : List α) (start step : Nat) :
    pivot lt' (f first) (l.map f) start step = f (pivot lt first l start step) := by
  induction step using Nat.strong_induction_on generalizing start with
  | _ step ih =>
      rw [pivot.eq_def lt', pivot.eq_def lt]
      split
      · simp only [List.getD_eq_getElem?_getD, List.getElem?_map, Option.getD_map, middle_map h]
      · next hstep =>
        have hless : step / 8 < step := by omega
        rw [ih _ hless, ih _ hless, ih _ hless, middle_map h]

theorem partitionSort_map (limit : Nat) (least : Option α) (l : List α) :
    partitionSort lt' limit (least.map f) (l.map f) =
      (partitionSort lt limit least l).map (List.map f) := by
  induction limit generalizing least l with
  | zero =>
      cases l with
      | nil => rfl
      | cons x l =>
          rw [List.map_cons, partitionSort, partitionSort, ← List.map_cons]
          simp only [List.length_map, sortBlock_map h, sortRuns_map h (sortBlock_map h)]
          split
          · rfl
          · rfl
  | succ limit ih =>
      cases l with
      | nil => rfl
      | cons first l =>
          rw [List.map_cons, partitionSort, partitionSort, ← List.map_cons]
          simp only [List.length_map, sortBlock_map h, pivot_map h, List.filter_map,
            Function.comp_def, h, List.isEmpty_map, Option.any_map]
          split
          · rfl
          · have hnone := ih none
            have hsome := fun p => ih (some p)
            rw [Option.map_none] at hnone
            simp only [Option.map_some] at hsome
            generalize pivot lt first (first :: l) 0 ((first :: l).length / 8) = p
            split
            · rw [hnone]
              generalize partitionSort lt limit none _ = rest
              cases rest with
              | none => rfl
              | some rest => exact congrArg some List.map_append.symm
            · rw [hsome, ih]
              generalize partitionSort lt limit (some p) _ = right
              generalize partitionSort lt limit least _ = left
              cases right with
              | none => rfl
              | some right =>
                  cases left with
                  | none => rfl
                  | some left => exact congrArg some List.map_append.symm

/-- The images of elements are sorted as these are. -/
theorem sort_map (l : List α) : sort lt' (l.map f) = (sort lt l).map (List.map f) := by
  unfold sort
  rw [List.length_map]
  split
  · exact congrArg some (insertAll_map h [] l)
  · refine sortRuns_map h (fun l => ?_) _ l
    unfold quicksort
    rw [List.length_map]
    exact partitionSort_map h _ none l

end Images

/-! ## Elements that are sorted -/

section Elements

variable {l : List α}

/-- A comparison that is that of an order on some elements sorts these. -/
theorem exists_sort_of_mem (h : IsWeakOrder fun x y : {x // x ∈ l} => lt x.1 y.1) :
    ∃ m, sort lt l = some m ∧ m.Perm l ∧ IsOrdered lt m ∧
      ∀ x ∈ l, m.filter (same lt x) = l.filter (same lt x) := by
  obtain ⟨m, hm, hsorts⟩ := exists_sort h l.attach
  have hmap := @sort_map {x // x ∈ l} α _ lt Subtype.val (fun x y => rfl) l.attach
  rw [List.attach_map_subtype_val, hm] at hmap
  refine ⟨m.map Subtype.val, hmap, sort_perm hmap, List.pairwise_map.mpr hsorts.ordered, ?_⟩
  intro x hx
  calc (m.map Subtype.val).filter (same lt x)
      = (m.filter (same lt x ∘ Subtype.val)).map Subtype.val := List.filter_map
    _ = (l.attach.filter (same lt x ∘ Subtype.val)).map Subtype.val :=
        congrArg (List.map Subtype.val) (hsorts.filter ⟨x, hx⟩)
    _ = (l.attach.map Subtype.val).filter (same lt x) := List.filter_map.symm
    _ = l.filter (same lt x) := by rw [List.attach_map_subtype_val]

/-- Elements that are compared alike are sorted alike. -/
theorem sort_forall₂ {R : α → β → Prop} (h : ∀ a b a' b', R a a' → R b b' → lt' a' b' = lt a b)
    {l' : List β} (hl : List.Forall₂ R l l') :
    Option.Rel (List.Forall₂ R) (sort lt l) (sort lt' l') := by
  -- both lists are images of the pairs of their elements
  obtain ⟨pairs, rfl, rfl⟩ : ∃ pairs : List {p : α × β // R p.1 p.2},
      l = pairs.map (fun p => p.1.1) ∧ l' = pairs.map fun p => p.1.2 := by
    induction hl with
    | nil => exact ⟨[], rfl, rfl⟩
    | cons hab _ ih =>
        obtain ⟨pairs, rfl, rfl⟩ := ih
        exact ⟨⟨(_, _), hab⟩ :: pairs, rfl, rfl⟩
  have hleft := @sort_map {p : α × β // R p.1 p.2} α (fun p q => lt p.1.1 q.1.1) lt
    (fun p => p.1.1) (fun p q => rfl) pairs
  have hright := @sort_map {p : α × β // R p.1 p.2} β (fun p q => lt p.1.1 q.1.1) lt'
    (fun p => p.1.2) (fun p q => h _ _ _ _ p.2 q.2) pairs
  rw [hleft, hright]
  cases sort (fun p q : {p : α × β // R p.1 p.2} => lt p.1.1 q.1.1) pairs with
  | none => exact .none
  | some m =>
      refine .some (List.forall₂_map_left_iff.mpr (List.forall₂_map_right_iff.mpr ?_))
      exact List.forall₂_same.mpr fun p _ => p.2

end Elements

end Sorting

end QueryPlanner
