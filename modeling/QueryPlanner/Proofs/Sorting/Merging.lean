/-
# Insertion and merging

Whatever the comparison is, elements that are inserted or merged are rearranged. For a comparison that
is that of an order they are sorted. Two halves that are merged from both ends at once then meet: each
end cuts both halves so that nothing beyond the cut is in the wrong place, and there is one such cut for
each number of elements.

* `Sorting.sorts_insertAll`, `Sorting.sorts_sortFour` : insertion, and four elements at once;
* `Sorting.exists_fronts` : what merging from the front comes to;
* `Sorting.sorts_merge`, `Sorting.sorts_mergeHalves` : merging two lists in order;
* `Sorting.sorts_sortBlock` : a block is sorted.
-/
import QueryPlanner.Proofs.Sorting.Arrangement

namespace QueryPlanner

namespace Sorting

variable {α : Type} {lt : α → α → Bool} {l l₁ l₂ r r₁ r₂ m : List α} {a b c d x : α} {n : Nat}

/-! ## Insertion -/

/-- An element is inserted behind all that are above it. -/
theorem exists_insert (lt : α → α → Bool) (x : α) (l : List α) : ∃ above rest, l = above ++ rest ∧
    insert lt x l = above ++ x :: rest ∧ (∀ y ∈ above, lt x y = true) ∧
      ∀ y ∈ rest.head?, lt x y = false := by
  induction l with
  | nil => exact ⟨[], [], rfl, rfl, nofun, nofun⟩
  | cons y l ih =>
      unfold insert
      split
      · next hxy =>
        obtain ⟨above, rest, rfl, heq, habove, hrest⟩ := ih
        exact ⟨y :: above, rest, rfl, congrArg (y :: ·) heq,
          List.forall_mem_cons.mpr ⟨hxy, habove⟩, hrest⟩
      · next hxy =>
        refine ⟨[], y :: l, rfl, rfl, nofun, fun z hz => ?_⟩
        obtain rfl := Option.some.inj hz
        exact Bool.eq_false_iff.mpr hxy

theorem insert_perm (lt : α → α → Bool) (x : α) (l : List α) : (insert lt x l).Perm (x :: l) := by
  obtain ⟨above, rest, rfl, heq, -⟩ := exists_insert lt x l
  rw [heq]
  exact List.perm_middle

theorem insertAll_cons (lt : α → α → Bool) (l : List α) (x : α) (r : List α) :
    insertAll lt l (x :: r) = insertAll lt (insert lt x l.reverse).reverse r := by
  unfold insertAll
  rw [List.reverse_reverse]
  rfl

theorem insertAll_nil (lt : α → α → Bool) (l : List α) : insertAll lt l [] = l :=
  List.reverse_reverse l

theorem insertAll_perm (lt : α → α → Bool) (l r : List α) : (insertAll lt l r).Perm (l ++ r) := by
  induction r generalizing l with
  | nil =>
      rw [insertAll_nil, List.append_nil]
  | cons x r ih =>
      rw [insertAll_cons]
      refine (ih _).trans ?_
      have hinsert : (insert lt x l.reverse).reverse.Perm (x :: l) :=
        (List.reverse_perm _).trans ((insert_perm lt x _).trans (l.reverse_perm.cons x))
      exact (hinsert.append_right r).trans List.perm_middle.symm

/-- An element is inserted where it belongs. -/
theorem sorts_insert (h : IsWeakOrder lt) (hl : IsOrdered lt l) (x : α) :
    Sorts lt (l ++ [x]) (insert lt x l.reverse).reverse := by
  obtain ⟨above, rest, hsplit, heq, habove, hrest⟩ := exists_insert lt x l.reverse
  have hl' : l = rest.reverse ++ above.reverse := by
    rw [← List.reverse_append, ← hsplit, List.reverse_reverse]
  subst hl'
  obtain ⟨hfront, hback, hacross⟩ := List.pairwise_append.mp hl
  -- nothing in front is above the element: the last one is not, and it is above all others
  have hle : ∀ y ∈ rest, lt x y = false := by
    intro y hy
    cases rest with
    | nil => exact absurd hy List.not_mem_nil
    | cons z rest =>
        have hxz := hrest z rfl
        rcases List.mem_cons.mp hy with rfl | hy
        · exact hxz
        · refine h.trans y z x ?_ hxz
          exact (List.pairwise_cons.mp (List.pairwise_reverse.mp hfront)).1 y hy
  rw [heq, List.reverse_append, List.reverse_cons, List.append_assoc, List.append_assoc]
  refine (Sorts.refl hfront).append ⟨keeps_swap h fun y hy z hz => ?_, ?_⟩ fun y hy z hz => ?_
  · obtain rfl := List.mem_singleton.mp hz
    exact habove y (List.mem_reverse.mp hy)
  · refine List.pairwise_cons.mpr ⟨fun y hy => ?_, hback⟩
    exact h.asymm x y (habove y (List.mem_reverse.mp hy))
  · rcases List.mem_append.mp hz with hz | hz
    · exact hacross y hy z hz
    · obtain rfl := List.mem_singleton.mp hz
      exact hle y (List.mem_reverse.mp hy)

/-- Elements are inserted where they belong. -/
theorem sorts_insertAll (h : IsWeakOrder lt) (hl : IsOrdered lt l) (r : List α) :
    Sorts lt (l ++ r) (insertAll lt l r) := by
  induction r generalizing l with
  | nil =>
      rw [insertAll_nil, List.append_nil]
      exact .refl hl
  | cons x r ih =>
      have hinsert := sorts_insert h hl x
      rw [insertAll_cons, List.append_cons]
      exact (ih hinsert.ordered).of_keeps (hinsert.toKeeps.append_right r)

/-! ## Four elements -/

theorem orderPair_perm (lt : α → α → Bool) (a b : α) : (orderPair lt a b).Perm [a, b] := by
  unfold orderPair
  split
  · exact .swap a b []
  · exact .refl _

/-- Two elements are put in order. -/
theorem sorts_orderPair (h : IsWeakOrder lt) (a b : α) : Sorts lt [a, b] (orderPair lt a b) := by
  unfold orderPair
  split
  · next hba =>
    refine ⟨keeps_swap (l := [a]) (r := [b]) h ?_, List.pairwise_pair.mpr (h.asymm b a hba)⟩
    simpa using hba
  · next hba => exact .refl (List.pairwise_pair.mpr (Bool.eq_false_iff.mpr hba))

theorem mergePairs_perm (lt : α → α → Bool) (a b c d : α) :
    (mergePairs lt a b c d).Perm [a, b, c, d] := by
  unfold mergePairs
  split
  · exact ((orderPair_perm lt b c).append_right [d]).cons a
  · have hrotate : [c, d, b].Perm [b, c, d] := @List.perm_append_comm _ [c, d] [b]
    exact (((orderPair_perm lt c d).append_right [b]).trans hrotate).cons a
  · have hrotate : [c, a, b].Perm [a, b, c] := @List.perm_append_comm _ [c] [a, b]
    exact (((orderPair_perm lt a b).append_right [d]).cons c).trans (hrotate.append_right [d])
  · have hrotate : [c, d, b].Perm [b, c, d] := @List.perm_append_comm _ [c, d] [b]
    refine (((orderPair_perm lt a d).append_right [b]).cons c).trans ?_
    exact (List.Perm.swap a c [d, b]).trans (hrotate.cons a)

/-- An element below all others, some that are sorted, and one that none of them is above. -/
theorem Sorts.between (h : Sorts lt l m) (hfirst : ∀ x ∈ l, lt x a = false)
    (hlast : ∀ x ∈ l, lt b x = false) (hab : lt b a = false) :
    Sorts lt (a :: (l ++ [b])) (a :: (m ++ [b])) := by
  have hone : ∀ x : α, Sorts lt [x] [x] := fun x => .refl (List.pairwise_singleton _ x)
  refine (hone a).append (h.append (hone b) ?_) ?_
  · intro x hx y hy
    obtain rfl := List.mem_singleton.mp hy
    exact hlast x hx
  · intro x hx y hy
    obtain rfl := List.mem_singleton.mp hx
    rcases List.mem_append.mp hy with hy | hy
    · exact hfirst y hy
    · obtain rfl := List.mem_singleton.mp hy
      exact hab

/-- Two pairs in order are sorted. -/
theorem sorts_mergePairs (h : IsWeakOrder lt) (hab : lt b a = false) (hcd : lt d c = false) :
    Sorts lt [a, b, c, d] (mergePairs lt a b c d) := by
  unfold mergePairs
  split
  · next hca hdb =>
    refine (sorts_orderPair h b c).between ?_ ?_ (h.trans a b d hab hdb)
    · simp [hab, hca]
    · simp [hdb, hcd]
  · next hca hdb =>
    have hkeeps : Keeps lt [a, b, c, d] [a, c, d, b] := by
      refine .append_left [a] (keeps_swap (l := [b]) (r := [c, d]) h ?_)
      simp [hdb, h.lt_of_le_of_lt hcd hdb]
    refine ((sorts_orderPair h c d).between ?_ ?_ hab).of_keeps hkeeps
    · simp [hca, h.trans a c d hca hcd]
    · simp [h.asymm d b hdb, h.asymm c b (h.lt_of_le_of_lt hcd hdb)]
  · next hca hdb =>
    have hkeeps : Keeps lt [a, b, c, d] [c, a, b, d] := by
      refine (keeps_swap (l := [a, b]) (r := [c]) h ?_).append_right [d]
      simp [hca, h.lt_of_lt_of_le hca hab]
    refine ((sorts_orderPair h a b).between ?_ ?_ hcd).of_keeps hkeeps
    · simp [h.asymm c a hca, h.asymm c b (h.lt_of_lt_of_le hca hab)]
    · simp [hdb, h.trans a b d hab hdb]
  · next hca hdb =>
    have hcb := h.lt_of_lt_of_le hca hab
    have hfirst : Keeps lt [a, b, c, d] [c, a, b, d] := by
      refine (keeps_swap (l := [a, b]) (r := [c]) h ?_).append_right [d]
      simp [hca, hcb]
    have hsecond : Keeps lt [c, a, b, d] [c, a, d, b] := by
      refine .append_left [c, a] (keeps_swap (l := [b]) (r := [d]) h ?_)
      simpa using hdb
    refine ((sorts_orderPair h a d).between ?_ ?_ (h.asymm c b hcb)).of_keeps
      (hfirst.trans hsecond)
    · simp [h.asymm c a hca, hcd]
    · simp [hab, h.asymm d b hdb]

/-- Four elements are merged as two pairs in order. -/
theorem sortFour_eq (lt : α → α → Bool) (v₀ v₁ v₂ v₃ : α) : ∃ a b c d,
    orderPair lt v₀ v₁ = [a, b] ∧ orderPair lt v₂ v₃ = [c, d] ∧
      sortFour lt v₀ v₁ v₂ v₃ = mergePairs lt a b c d := by
  have hpair : ∀ v w : α, ∃ a b, orderPair lt v w = [a, b] ∧
      (if lt w v then (w, v) else (v, w)) = (a, b) := by
    intro v w
    unfold orderPair
    split
    · exact ⟨w, v, rfl, rfl⟩
    · exact ⟨v, w, rfl, rfl⟩
  obtain ⟨a, b, hab, hfirst⟩ := hpair v₀ v₁
  obtain ⟨c, d, hcd, hsecond⟩ := hpair v₂ v₃
  refine ⟨a, b, c, d, hab, hcd, ?_⟩
  unfold sortFour
  rw [hfirst, hsecond]

theorem sortFour_perm (lt : α → α → Bool) (v₀ v₁ v₂ v₃ : α) :
    (sortFour lt v₀ v₁ v₂ v₃).Perm [v₀, v₁, v₂, v₃] := by
  obtain ⟨a, b, c, d, hab, hcd, heq⟩ := sortFour_eq lt v₀ v₁ v₂ v₃
  have hpairs := (orderPair_perm lt v₀ v₁).append (orderPair_perm lt v₂ v₃)
  rw [hab, hcd] at hpairs
  rw [heq]
  exact (mergePairs_perm lt a b c d).trans hpairs

/-- Four elements are sorted. -/
theorem sorts_sortFour (h : IsWeakOrder lt) (v₀ v₁ v₂ v₃ : α) :
    Sorts lt [v₀, v₁, v₂, v₃] (sortFour lt v₀ v₁ v₂ v₃) := by
  obtain ⟨a, b, c, d, hab, hcd, heq⟩ := sortFour_eq lt v₀ v₁ v₂ v₃
  have hfirst := sorts_orderPair h v₀ v₁
  have hsecond := sorts_orderPair h v₂ v₃
  rw [hab] at hfirst
  rw [hcd] at hsecond
  rw [heq]
  have hba := List.rel_of_pairwise_cons hfirst.ordered List.mem_cons_self
  have hdc := List.rel_of_pairwise_cons hsecond.ordered List.mem_cons_self
  exact (sorts_mergePairs h hba hdc).of_keeps (hfirst.toKeeps.append hsecond.toKeeps)

/-! ## Merging from the front -/

/-- What is merged and what is not, cut so that nothing is in the wrong place: no element behind the cut
of one list belongs in front of one before the cut of the other. -/
structure IsCut (lt : α → α → Bool) (l₁ l₂ r₁ r₂ : List α) : Prop where
  left : ∀ a ∈ l₁, ∀ b ∈ r₂, lt b a = false
  right : ∀ b ∈ r₁, ∀ a ∈ l₂, lt b a = true

/-- Elements from the front of two lists, merged: the rests are what is behind the cut. -/
structure Fronts (lt : α → α → Bool) (n : Nat) (l r l₁ l₂ r₁ r₂ m : List α) : Prop where
  eq : mergeFront lt n l r = (m, l₂, r₂)
  left : l = l₁ ++ l₂
  right : r = r₁ ++ r₂
  perm : m.Perm (l₁ ++ r₁)
  length_le : m.length ≤ n
  full : m.length = n ∨ l₂ = [] ∨ r₂ = []
  sorts : IsWeakOrder lt → IsOrdered lt l → IsOrdered lt r → Sorts lt (l₁ ++ r₁) m
  cut : IsWeakOrder lt → IsOrdered lt l → IsOrdered lt r → IsCut lt l₁ l₂ r₁ r₂

/-- No element of a list in order is below the first one. -/
theorem IsOrdered.le_of_mem (h : IsWeakOrder lt) (hl : IsOrdered lt (a :: l)) (hx : x ∈ a :: l) :
    lt x a = false := by
  rcases List.mem_cons.mp hx with rfl | hx
  · exact h.irrefl x
  · exact (List.pairwise_cons.mp hl).1 x hx

/-- An element of the left list is merged if the first one on the right is not below it. -/
theorem Fronts.cons_left (hba : lt b a = false) (hf : Fronts lt n l (b :: r) l₁ l₂ r₁ r₂ m) :
    Fronts lt (n + 1) (a :: l) (b :: r) (a :: l₁) l₂ r₁ r₂ (a :: m) where
  eq := by
    rw [mergeFront, hba, hf.eq]
    rfl
  left := congrArg (a :: ·) hf.left
  right := hf.right
  perm := hf.perm.cons a
  length_le := Nat.succ_le_succ hf.length_le
  full := hf.full.imp_left (congrArg Nat.succ)
  sorts h hl hr := by
    have hall := hf.sorts h (List.pairwise_cons.mp hl).2 hr
    refine (Sorts.refl (List.pairwise_singleton _ a)).append hall fun x hx y hy => ?_
    obtain rfl := List.mem_singleton.mp hx
    rcases List.mem_append.mp hy with hy | hy
    · refine (List.pairwise_cons.mp hl).1 y ?_
      rw [hf.left]
      exact List.mem_append_left _ hy
    · refine h.trans x b y hba (IsOrdered.le_of_mem h hr ?_)
      rw [hf.right]
      exact List.mem_append_left _ hy
  cut h hl hr := by
    obtain ⟨hleft, hright⟩ := hf.cut h (List.pairwise_cons.mp hl).2 hr
    refine ⟨List.forall_mem_cons.mpr ⟨fun y hy => ?_, hleft⟩, hright⟩
    refine h.trans a b y hba (IsOrdered.le_of_mem h hr ?_)
    rw [hf.right]
    exact List.mem_append_right _ hy

/-- An element of the right list is merged if it is below the first one on the left. -/
theorem Fronts.cons_right (hba : lt b a = true) (hf : Fronts lt n (a :: l) r l₁ l₂ r₁ r₂ m) :
    Fronts lt (n + 1) (a :: l) (b :: r) l₁ l₂ (b :: r₁) r₂ (b :: m) where
  eq := by
    rw [mergeFront, hba, hf.eq]
    rfl
  left := hf.left
  right := congrArg (b :: ·) hf.right
  perm := (hf.perm.cons b).trans List.perm_middle.symm
  length_le := Nat.succ_le_succ hf.length_le
  full := hf.full.imp_left (congrArg Nat.succ)
  sorts h hl hr := by
    have hfront : ∀ x ∈ l₁, lt b x = true := by
      intro x hx
      refine h.lt_of_lt_of_le hba (IsOrdered.le_of_mem h hl ?_)
      rw [hf.left]
      exact List.mem_append_left _ hx
    -- the element moves in front of those on the left, which are all above it
    have hkeeps : Keeps lt (l₁ ++ b :: r₁) ([b] ++ (l₁ ++ r₁)) := by
      rw [List.append_cons, ← List.append_assoc]
      refine (keeps_swap h fun x hx y hy => ?_).append_right r₁
      obtain rfl := List.mem_singleton.mp hy
      exact hfront x hx
    have hall := hf.sorts h hl (List.pairwise_cons.mp hr).2
    refine Sorts.of_keeps hkeeps ((Sorts.refl (List.pairwise_singleton _ b)).append hall ?_)
    intro x hx y hy
    obtain rfl := List.mem_singleton.mp hx
    rcases List.mem_append.mp hy with hy | hy
    · exact h.asymm x y (hfront y hy)
    · refine (List.pairwise_cons.mp hr).1 y ?_
      rw [hf.right]
      exact List.mem_append_left _ hy
  cut h hl hr := by
    obtain ⟨hleft, hright⟩ := hf.cut h hl (List.pairwise_cons.mp hr).2
    refine ⟨hleft, List.forall_mem_cons.mpr ⟨fun y hy => ?_, hright⟩⟩
    refine h.lt_of_lt_of_le hba (IsOrdered.le_of_mem h hl ?_)
    rw [hf.left]
    exact List.mem_append_right _ hy

/-- Nothing is merged where a list has ended. -/
theorem Fronts.nil (heq : mergeFront lt n l r = ([], l, r)) (hend : n = 0 ∨ l = [] ∨ r = []) :
    Fronts lt n l r [] l [] r [] where
  eq := heq
  left := rfl
  right := rfl
  perm := .refl _
  length_le := Nat.zero_le n
  full := hend.imp_left Eq.symm
  sorts _ _ _ := .refl .nil
  cut _ _ _ := ⟨nofun, nofun⟩

/-- Merging from the front gives elements from the fronts of both lists. -/
theorem exists_fronts (lt : α → α → Bool) (n : Nat) (l r : List α) :
    ∃ l₁ l₂ r₁ r₂ m, Fronts lt n l r l₁ l₂ r₁ r₂ m := by
  induction n generalizing l r with
  | zero => exact ⟨[], l, [], r, [], .nil rfl (.inl rfl)⟩
  | succ n ih =>
      cases l with
      | nil => exact ⟨[], [], [], r, [], .nil rfl (.inr (.inl rfl))⟩
      | cons a l =>
          cases r with
          | nil => exact ⟨[], a :: l, [], [], [], .nil rfl (.inr (.inr rfl))⟩
          | cons b r =>
              cases hba : lt b a with
              | true =>
                  obtain ⟨l₁, l₂, r₁, r₂, m, hf⟩ := ih (a :: l) r
                  exact ⟨l₁, l₂, b :: r₁, r₂, b :: m, hf.cons_right hba⟩
              | false =>
                  obtain ⟨l₁, l₂, r₁, r₂, m, hf⟩ := ih l (b :: r)
                  exact ⟨a :: l₁, l₂, r₁, r₂, a :: m, hf.cons_left hba⟩

/-- Elements from the back of two lists, merged: the rests are what is in front of the cut. -/
structure Backs (lt : α → α → Bool) (n : Nat) (l r l₁ l₂ r₁ r₂ m : List α) : Prop where
  eq : mergeFront (fun a b => lt b a) n r.reverse l.reverse = (m.reverse, r₁.reverse, l₁.reverse)
  left : l = l₁ ++ l₂
  right : r = r₁ ++ r₂
  perm : m.Perm (l₂ ++ r₂)
  length_le : m.length ≤ n
  full : m.length = n ∨ l₁ = [] ∨ r₁ = []
  sorts : IsWeakOrder lt → IsOrdered lt l → IsOrdered lt r → Sorts lt (l₂ ++ r₂) m
  cut : IsWeakOrder lt → IsOrdered lt l → IsOrdered lt r → IsCut lt l₁ l₂ r₁ r₂

/-- Merging from the back gives elements from the backs of both lists. -/
theorem exists_backs (lt : α → α → Bool) (n : Nat) (l r : List α) :
    ∃ l₁ l₂ r₁ r₂ m, Backs lt n l r l₁ l₂ r₁ r₂ m := by
  obtain ⟨r₂, r₁, l₂, l₁, m, hf⟩ := exists_fronts (fun a b => lt b a) n r.reverse l.reverse
  have hreverse : r₂ ++ l₂ = (l₂.reverse ++ r₂.reverse).reverse := by
    rw [List.reverse_append, List.reverse_reverse, List.reverse_reverse]
  refine ⟨l₁.reverse, l₂.reverse, r₁.reverse, r₂.reverse, m.reverse, ?_, ?_, ?_, ?_, ?_, ?_, ?_, ?_⟩
  · rw [hf.eq, List.reverse_reverse, List.reverse_reverse, List.reverse_reverse]
  · rw [← List.reverse_append, ← hf.right, List.reverse_reverse]
  · rw [← List.reverse_append, ← hf.left, List.reverse_reverse]
  · have hperm := m.reverse_perm.trans hf.perm
    rw [hreverse] at hperm
    exact hperm.trans (List.reverse_perm _)
  · rw [List.length_reverse]
    exact hf.length_le
  · rw [List.length_reverse, List.reverse_eq_nil_iff, List.reverse_eq_nil_iff]
    exact hf.full.imp_right Or.symm
  · intro h hl hr
    have hsorts := hf.sorts h.flip (List.pairwise_reverse.mpr hr) (List.pairwise_reverse.mpr hl)
    rw [hreverse] at hsorts
    exact hsorts.reverse
  · intro h hl hr
    obtain ⟨hleft, hright⟩ :=
      hf.cut h.flip (List.pairwise_reverse.mpr hr) (List.pairwise_reverse.mpr hl)
    constructor
    · intro a ha b hb
      exact hleft b (List.mem_reverse.mp hb) a (List.mem_reverse.mp ha)
    · intro b hb a ha
      exact hright a (List.mem_reverse.mp ha) b (List.mem_reverse.mp hb)

/-! ## Cuts -/

/-- What is in front of a cut belongs in front of what is behind it. -/
theorem IsCut.le (h : IsWeakOrder lt) (hcut : IsCut lt l₁ l₂ r₁ r₂) (hl : IsOrdered lt (l₁ ++ l₂))
    (hr : IsOrdered lt (r₁ ++ r₂)) : ∀ x ∈ l₁ ++ r₁, ∀ y ∈ l₂ ++ r₂, lt y x = false := by
  intro x hx y hy
  rcases List.mem_append.mp hx with hx | hx
  · rcases List.mem_append.mp hy with hy | hy
    · exact (List.pairwise_append.mp hl).2.2 x hx y hy
    · exact hcut.left x hx y hy
  · rcases List.mem_append.mp hy with hy | hy
    · exact h.asymm x y (hcut.right x hx y hy)
    · exact (List.pairwise_append.mp hr).2.2 x hx y hy

/-- What is in front of the cut of either list may come before what is behind it. -/
theorem IsCut.keeps (h : IsWeakOrder lt) (hcut : IsCut lt l₁ l₂ r₁ r₂) :
    Keeps lt (l₁ ++ l₂ ++ (r₁ ++ r₂)) (l₁ ++ r₁ ++ (l₂ ++ r₂)) := by
  have hswap : Keeps lt (l₂ ++ r₁) (r₁ ++ l₂) :=
    keeps_swap h fun a ha b hb => hcut.right b hb a ha
  have hkeeps := (hswap.append_left l₁).append_right r₂
  simpa only [List.append_assoc] using hkeeps

/-- Of two cuts of the same lists, the one with fewer elements in front is not behind the other one in
either list. -/
theorem IsCut.exists_between {l₁' l₂' r₁' r₂' : List α} (hcut : IsCut lt l₁ l₂ r₁ r₂)
    (hcut' : IsCut lt l₁' l₂' r₁' r₂') (hl : l₁ ++ l₂ = l₁' ++ l₂') (hr : r₁ ++ r₂ = r₁' ++ r₂')
    (hlength : l₁.length + r₁.length ≤ l₁'.length + r₁'.length) :
    ∃ lm rm, l₁' = l₁ ++ lm ∧ l₂ = lm ++ l₂' ∧ r₁' = r₁ ++ rm ∧ r₂ = rm ++ r₂' := by
  rcases List.append_eq_append_iff.mp hl with ⟨lm, rfl, rfl⟩ | ⟨lm, rfl, rfl⟩
  · rcases List.append_eq_append_iff.mp hr with ⟨rm, rfl, rfl⟩ | ⟨rm, rfl, rfl⟩
    · exact ⟨lm, rm, rfl, rfl, rfl, rfl⟩
    · -- an element between the cuts on the right would be below one on the left, and not below it
      cases rm with
      | nil => exact ⟨lm, [], rfl, rfl, by simp, by simp⟩
      | cons b rm =>
          obtain ⟨a, ha⟩ : ∃ a, a ∈ lm := List.exists_mem_of_length_pos (by
            simp only [List.length_append, List.length_cons] at hlength
            omega)
          have hlt := hcut.right b (by simp) a (List.mem_append_left _ ha)
          rw [hcut'.left a (List.mem_append_right _ ha) b (by simp)] at hlt
          cases hlt
  · rcases List.append_eq_append_iff.mp hr with ⟨rm, rfl, rfl⟩ | ⟨rm, rfl, rfl⟩
    · cases lm with
      | nil => exact ⟨[], rm, by simp, by simp, rfl, rfl⟩
      | cons a lm =>
          obtain ⟨b, hb⟩ : ∃ b, b ∈ rm := List.exists_mem_of_length_pos (by
            simp only [List.length_append, List.length_cons] at hlength
            omega)
          have hlt := hcut'.right b (List.mem_append_right _ hb) a (by simp)
          rw [hcut.left a (by simp) b (List.mem_append_left _ hb)] at hlt
          cases hlt
    · simp only [List.length_append] at hlength
      obtain rfl := List.eq_nil_of_length_eq_zero (l := lm) (by omega)
      obtain rfl := List.eq_nil_of_length_eq_zero (l := rm) (by omega)
      exact ⟨[], [], by simp, by simp, by simp, by simp⟩

/-! ## Merging two lists -/

theorem Fronts.length_eq (hf : Fronts lt n l r l₁ l₂ r₁ r₂ m) :
    m.length = l₁.length + r₁.length := by
  rw [hf.perm.length_eq, List.length_append]

/-- What is merged, and then what is left, are the elements of both lists. -/
theorem Fronts.perm_append (hf : Fronts lt n l r l₁ l₂ r₁ r₂ m) :
    (m ++ l₂ ++ r₂).Perm (l ++ r) := by
  rw [hf.left, hf.right, List.append_assoc, List.append_assoc]
  refine (hf.perm.append_right _).trans ?_
  rw [List.append_assoc]
  exact (List.perm_append_comm_assoc _ _ _).append_left l₁

/-- If there are no more elements than may be merged, nothing is left of one of the lists. -/
theorem Fronts.eq_nil (hf : Fronts lt (l.length + r.length) l r l₁ l₂ r₁ r₂ m) :
    l₂ = [] ∨ r₂ = [] := by
  rcases hf.full with hfull | hend
  · have hlength := hf.perm_append.length_eq
    simp only [List.length_append] at hlength
    exact .inl (List.eq_nil_of_length_eq_zero (by omega))
  · exact hend

/-- What is merged, and then what is left of one of the lists, is sorted. -/
theorem Fronts.sorts_append (h : IsWeakOrder lt) (hl : IsOrdered lt l) (hr : IsOrdered lt r)
    (hf : Fronts lt (l.length + r.length) l r l₁ l₂ r₁ r₂ m) :
    Sorts lt (l ++ r) (m ++ l₂ ++ r₂) := by
  have hmerged := hf.sorts h hl hr
  have hcut := hf.cut h hl hr
  have hend := hf.eq_nil
  obtain rfl := hf.left
  obtain rfl := hf.right
  rw [List.append_assoc m]
  refine (hmerged.append (.refl ?_) (hcut.le h hl hr)).of_keeps (hcut.keeps h)
  rcases hend with rfl | rfl
  · exact (List.pairwise_append.mp hr).2.1
  · rw [List.append_nil]
    exact (List.pairwise_append.mp hl).2.1

theorem merge_perm (lt : α → α → Bool) (l r : List α) : (merge lt l r).Perm (l ++ r) := by
  unfold merge
  dsimp only
  split
  · obtain ⟨l₁, l₂, r₁, r₂, m, hf⟩ := exists_fronts lt (l.length + r.length) l r
    rw [hf.eq]
    exact hf.perm_append
  · obtain ⟨r₁, r₂, l₁, l₂, m, hf⟩ :=
      exists_fronts (fun a b => lt b a) (l.length + r.length) r.reverse l.reverse
    rw [hf.eq]
    refine (List.reverse_perm _).trans (hf.perm_append.trans ?_)
    rw [← List.reverse_append]
    exact List.reverse_perm _

/-- Two lists in order are sorted when they are merged. -/
theorem sorts_merge (h : IsWeakOrder lt) (hl : IsOrdered lt l) (hr : IsOrdered lt r) :
    Sorts lt (l ++ r) (merge lt l r) := by
  unfold merge
  dsimp only
  split
  · obtain ⟨l₁, l₂, r₁, r₂, m, hf⟩ := exists_fronts lt (l.length + r.length) l r
    rw [hf.eq]
    exact hf.sorts_append h hl hr
  · obtain ⟨r₁, r₂, l₁, l₂, m, hf⟩ :=
      exists_fronts (fun a b => lt b a) (r.reverse.length + l.reverse.length) r.reverse l.reverse
    have hsorts := hf.sorts_append h.flip (List.pairwise_reverse.mpr hr)
      (List.pairwise_reverse.mpr hl)
    have heq := hf.eq
    rw [← List.reverse_append] at hsorts
    rw [List.length_reverse, List.length_reverse, Nat.add_comm] at heq
    rw [heq]
    exact hsorts.reverse

/-! ## Merging halves -/

section Halves

variable {l₁' l₂' r₁' r₂' m' out : List α}

/-- Two ends meet if what neither of them has merged, but for the middle, is nothing. -/
theorem mergeHalves_eq (hf : Fronts lt ((l.length + r.length) / 2) l r l₁ l₂ r₁ r₂ m)
    (hb : Backs lt ((l.length + r.length) / 2) l r l₁' l₂' r₁' r₂' m') :
    mergeHalves lt l r =
      let (middle, l', r') := takeMiddle ((l.length + r.length) % 2 = 1)
        (l.length < l₂.length + l₁'.length) l₂ r₂
      if l'.length + l₁'.length = l.length ∧ r'.length + r₁'.length = r.length then
        some (m ++ middle ++ m')
      else none := by
  unfold mergeHalves
  dsimp only
  rw [hf.eq, hb.eq]
  simp only [List.length_reverse, List.reverse_reverse]

/-- What is taken is from the front of one of the two. -/
theorem exists_takeMiddle (isOdd isLeft : Bool) (l r : List α) : ∃ lm l' rm r', l = lm ++ l' ∧
    r = rm ++ r' ∧ takeMiddle isOdd isLeft l r = (lm ++ rm, l', r') := by
  unfold takeMiddle
  split
  · exact ⟨[], l, [], r, rfl, rfl, rfl⟩
  · exact ⟨l.take 1, l.drop 1, [], r, (List.take_append_drop 1 l).symm, rfl, by simp⟩
  · exact ⟨[], l, r.take 1, r.drop 1, rfl, (List.take_append_drop 1 r).symm, rfl⟩

/-- The element in the middle is taken from the half that has one more than both ends merge. -/
theorem takeMiddle_append (lm rm l r : List α) (h : lm.length + rm.length < 2) :
    takeMiddle (lm.length + rm.length = 1) (0 < lm.length) (lm ++ l) (rm ++ r) =
      (lm ++ rm, l, r) := by
  rcases lm with _ | ⟨x, _ | ⟨y, lm⟩⟩
  · rcases rm with _ | ⟨x, _ | ⟨y, rm⟩⟩
    · rfl
    · rfl
    · simp only [List.length_cons, List.length_nil] at h
      omega
  · rcases rm with _ | ⟨y, rm⟩
    · rfl
    · simp only [List.length_cons, List.length_nil] at h
      omega
  · simp only [List.length_cons] at h
    omega

/-- If the two ends meet, all elements of both halves are merged. -/
theorem mergeHalves_perm (h : mergeHalves lt l r = some out) : out.Perm (l ++ r) := by
  classical
  obtain ⟨l₁, l₂, r₁, r₂, m, hf⟩ := exists_fronts lt ((l.length + r.length) / 2) l r
  obtain ⟨l₁', l₂', r₁', r₂', m', hb⟩ := exists_backs lt ((l.length + r.length) / 2) l r
  rw [mergeHalves_eq hf hb] at h
  obtain ⟨lm, l', rm, r', rfl, rfl, hmiddle⟩ := exists_takeMiddle
    ((l.length + r.length) % 2 = 1) (l.length < l₂.length + l₁'.length) l₂ r₂
  rw [hmiddle] at h
  dsimp only at h
  split at h
  · next hmeet =>
    cases h
    have hleft := congrArg List.length hb.left
    have hright := congrArg List.length hb.right
    rw [List.length_append] at hleft hright
    have hl : (l₁ ++ lm) ++ l' = l₁' ++ l₂' := by rw [List.append_assoc, ← hf.left, ← hb.left]
    have hr : (r₁ ++ rm) ++ r' = r₁' ++ r₂' := by rw [List.append_assoc, ← hf.right, ← hb.right]
    obtain ⟨-, rfl⟩ := List.append_inj' hl (by omega)
    obtain ⟨-, rfl⟩ := List.append_inj' hr (by omega)
    rw [List.perm_iff_count]
    intro x
    have hm := hf.perm.count_eq x
    have hm' := hb.perm.count_eq x
    rw [hf.left, hf.right]
    simp only [List.count_append] at hm hm' ⊢
    omega
  · cases h

/-- As many elements are merged from each end as there are pairs. -/
theorem Fronts.length_of_halves (hlr : l.length ≤ r.length) (hrl : r.length ≤ l.length + 1)
    (hf : Fronts lt ((l.length + r.length) / 2) l r l₁ l₂ r₁ r₂ m) :
    l₁.length + r₁.length = (l.length + r.length) / 2 := by
  have hlength := hf.length_eq
  have hle := hf.length_le
  have hl := congrArg List.length hf.left
  have hr := congrArg List.length hf.right
  rw [List.length_append] at hl hr
  rcases hf.full with hfull | rfl | rfl
  · omega
  · rw [List.length_nil] at hl
    omega
  · rw [List.length_nil] at hr
    omega

theorem Backs.length_of_halves (hlr : l.length ≤ r.length) (hrl : r.length ≤ l.length + 1)
    (hb : Backs lt ((l.length + r.length) / 2) l r l₁ l₂ r₁ r₂ m) :
    l₂.length + r₂.length = (l.length + r.length) / 2 := by
  have hlength := hb.perm.length_eq
  have hle := hb.length_le
  have hl := congrArg List.length hb.left
  have hr := congrArg List.length hb.right
  rw [List.length_append] at hl hr hlength
  rcases hb.full with hfull | rfl | rfl
  · omega
  · rw [List.length_nil] at hl
    omega
  · rw [List.length_nil] at hr
    omega

/-- Two halves in order are sorted when they are merged: the two ends meet. -/
theorem sorts_mergeHalves (h : IsWeakOrder lt) (hl : IsOrdered lt l) (hr : IsOrdered lt r)
    (hlr : l.length ≤ r.length) (hrl : r.length ≤ l.length + 1) :
    ∃ out, mergeHalves lt l r = some out ∧ Sorts lt (l ++ r) out := by
  obtain ⟨l₁, l₂, r₁, r₂, m, hf⟩ := exists_fronts lt ((l.length + r.length) / 2) l r
  obtain ⟨l₁', l₂', r₁', r₂', m', hb⟩ := exists_backs lt ((l.length + r.length) / 2) l r
  have hfront := hf.length_of_halves hlr hrl
  have hback := hb.length_of_halves hlr hrl
  have hleft := congrArg List.length hb.left
  have hright := congrArg List.length hb.right
  rw [List.length_append] at hleft hright
  have hcut := hf.cut h hl hr
  have hcut' := hb.cut h hl hr
  obtain ⟨lm, rm, rfl, rfl, rfl, rfl⟩ := hcut.exists_between hcut' (hf.left.symm.trans hb.left)
    (hf.right.symm.trans hb.right) (by omega)
  simp only [List.length_append] at hleft hright
  have hmiddle : lm.length + rm.length = (l.length + r.length) % 2 := by omega
  refine ⟨m ++ (lm ++ rm) ++ m', ?_, ?_⟩
  · rw [mergeHalves_eq hf hb]
    have hless : l.length < (lm ++ l₂').length + (l₁ ++ lm).length ↔ 0 < lm.length := by
      simp only [List.length_append]
      omega
    rw [← hmiddle, decide_eq_decide.mpr hless, takeMiddle_append lm rm l₂' r₂' (by omega)]
    exact if_pos (by simp only [List.length_append]; omega)
  · -- what is in the middle, and what is merged from the back, is behind what is merged from the front
    have hinner : IsCut lt lm l₂' rm r₂' :=
      ⟨fun a ha => hcut'.left a (List.mem_append_right _ ha),
        fun b hb => hcut'.right b (List.mem_append_right _ hb)⟩
    have hsorted := hf.sorts h hl hr
    have hsorted' := hb.sorts h hl hr
    obtain rfl := hf.left
    obtain rfl := hf.right
    have hl' := (List.pairwise_append.mp hl).2.1
    have hr' := (List.pairwise_append.mp hr).2.1
    have hone : IsOrdered lt (lm ++ rm) := by
      rw [← List.length_append] at hmiddle
      match lm ++ rm, hmiddle with
      | [], _ => exact .nil
      | [x], _ => exact List.pairwise_singleton _ x
      | _ :: _ :: _, hmiddle => simp only [List.length_cons] at hmiddle; omega
    have hback := ((Sorts.refl hone).append hsorted' (hinner.le h hl' hr')).of_keeps (hinner.keeps h)
    rw [List.append_assoc m]
    exact (hsorted.append hback (hcut.le h hl hr)).of_keeps (hcut.keeps h)

end Halves

/-! ## Blocks -/

theorem sortHalf_perm (lt : α → α → Bool) (enough : Bool) (half : List α) :
    (sortHalf lt enough half).Perm half := by
  unfold sortHalf
  split
  · exact (insertAll_perm lt _ _).trans ((sortFour_perm lt _ _ _ _).append_right _)
  · exact insertAll_perm lt [] half

theorem sorts_sortHalf (h : IsWeakOrder lt) (enough : Bool) (half : List α) :
    Sorts lt half (sortHalf lt enough half) := by
  unfold sortHalf
  split
  · next v₀ v₁ v₂ v₃ rest =>
    have hfour := sorts_sortFour h v₀ v₁ v₂ v₃
    exact (sorts_insertAll h hfour.ordered rest).of_keeps (hfour.toKeeps.append_right rest)
  · exact sorts_insertAll h .nil half

theorem sortBlock_perm {block out : List α} (h : sortBlock lt block = some out) :
    out.Perm block := by
  unfold sortBlock at h
  split at h
  · cases h
    exact .refl _
  · refine (mergeHalves_perm h).trans ?_
    refine ((sortHalf_perm lt _ _).append (sortHalf_perm lt _ _)).trans ?_
    rw [List.take_append_drop]

/-- A block is sorted. -/
theorem sorts_sortBlock (h : IsWeakOrder lt) (block : List α) :
    ∃ out, sortBlock lt block = some out ∧ Sorts lt block out := by
  unfold sortBlock
  split
  · next hlength =>
    refine ⟨block, rfl, .refl ?_⟩
    match block, hlength with
    | [], _ => exact .nil
    | [x], _ => exact List.pairwise_singleton _ x
  · have hleft := sorts_sortHalf h (decide (8 ≤ block.length)) (block.take (block.length / 2))
    have hright := sorts_sortHalf h (decide (8 ≤ block.length)) (block.drop (block.length / 2))
    have hl := hleft.perm.length_eq
    have hr := hright.perm.length_eq
    rw [List.length_take] at hl
    rw [List.length_drop] at hr
    obtain ⟨out, hout, hsorts⟩ := sorts_mergeHalves h hleft.ordered hright.ordered (by omega)
      (by omega)
    refine ⟨out, hout, hsorts.of_keeps ?_⟩
    have hkeeps := hleft.toKeeps.append hright.toKeeps
    rwa [List.take_append_drop] at hkeeps

end Sorting

end QueryPlanner
