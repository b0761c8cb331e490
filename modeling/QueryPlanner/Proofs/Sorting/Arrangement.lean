/-
# Elements in order

A comparison may be that of a strict order, but for elements that are the same: neither of them is
below the other. Elements can then be put in order in one way only, if those that are the same stay in
the order they are in.

* `Sorting.IsWeakOrder` : comparisons that are so;
* `Sorting.Keeps` : an arrangement of elements in which those that are the same stay in order;
* `Sorting.keeps_swap` : elements that are all below others may change places with them;
* `Sorting.Sorts` : an arrangement that is in order besides;
* `Sorting.eq_of_isOrdered` : there is only one of these.
-/
import Mathlib.Data.List.Perm.Basic
import Mathlib.Tactic.Common
import QueryPlanner.Sorting

namespace QueryPlanner

namespace Sorting

variable {α : Type} {lt : α → α → Bool} {l l' l₁ l₂ r m : List α} {a b c : α}

/-- Neither of two elements is below the other. -/
def same (lt : α → α → Bool) (x y : α) : Bool := !lt x y && !lt y x

/-- A comparison that is that of a strict order, but for elements that are the same. -/
structure IsWeakOrder (lt : α → α → Bool) : Prop where
  asymm : ∀ a b, lt a b = true → lt b a = false
  trans : ∀ a b c, lt b a = false → lt c b = false → lt c a = false

namespace IsWeakOrder

variable (h : IsWeakOrder lt)

include h

theorem irrefl (a : α) : lt a a = false := by
  cases haa : lt a a with
  | false => rfl
  | true => exact haa.symm.trans (h.asymm a a haa)

theorem lt_of_lt_of_le (hab : lt a b = true) (hbc : lt c b = false) : lt a c = true := by
  by_contra hac
  have hba := h.trans b c a hbc (Bool.eq_false_iff.mpr hac)
  rw [hab] at hba
  cases hba

theorem lt_of_le_of_lt (hab : lt b a = false) (hbc : lt b c = true) : lt a c = true := by
  by_contra hac
  have hcb := h.trans c a b (Bool.eq_false_iff.mpr hac) hab
  rw [hbc] at hcb
  cases hcb

theorem lt_trans (hab : lt a b = true) (hbc : lt b c = true) : lt a c = true :=
  h.lt_of_lt_of_le hab (h.asymm b c hbc)

/-- An order that is read from the other side is one. -/
theorem flip : IsWeakOrder fun a b => lt b a :=
  ⟨fun a b hba => h.asymm b a hba, fun a b c hab hbc => h.trans c b a hbc hab⟩

end IsWeakOrder

/-! ## Arrangements -/

/-- An arrangement of elements in which those that are the same stay in order. -/
structure Keeps (lt : α → α → Bool) (l m : List α) : Prop where
  perm : m.Perm l
  filter : ∀ x, m.filter (same lt x) = l.filter (same lt x)

namespace Keeps

theorem refl (l : List α) : Keeps lt l l := ⟨.refl l, fun _ => rfl⟩

theorem trans (h : Keeps lt l l') (h' : Keeps lt l' m) : Keeps lt l m :=
  ⟨h'.perm.trans h.perm, fun x => (h'.filter x).trans (h.filter x)⟩

theorem append {m₁ m₂ : List α} (h₁ : Keeps lt l₁ m₁) (h₂ : Keeps lt l₂ m₂) :
    Keeps lt (l₁ ++ l₂) (m₁ ++ m₂) := by
  refine ⟨h₁.perm.append h₂.perm, fun x => ?_⟩
  rw [List.filter_append, List.filter_append, h₁.filter, h₂.filter]

theorem append_left (l : List α) (h : Keeps lt l₁ l₂) : Keeps lt (l ++ l₁) (l ++ l₂) :=
  (refl l).append h

theorem append_right (r : List α) (h : Keeps lt l₁ l₂) : Keeps lt (l₁ ++ r) (l₂ ++ r) :=
  h.append (refl r)

theorem mem_iff (h : Keeps lt l m) : a ∈ m ↔ a ∈ l := h.perm.mem_iff

/-- The other way round, elements stay in order as well. -/
theorem reverse (h : Keeps (fun a b => lt b a) l.reverse m) : Keeps lt l m.reverse := by
  have hsame : ∀ x, same (fun a b => lt b a) x = same lt x := fun x =>
    funext fun y => Bool.and_comm ..
  refine ⟨(m.reverse_perm.trans h.perm).trans l.reverse_perm, fun x => ?_⟩
  have hfilter := h.filter x
  rw [hsame] at hfilter
  rw [List.filter_reverse, hfilter, List.filter_reverse, List.reverse_reverse]

end Keeps

/-- Elements that are all below others may change places with these. -/
theorem keeps_swap (h : IsWeakOrder lt) (hlt : ∀ a ∈ l, ∀ b ∈ r, lt b a = true) :
    Keeps lt (l ++ r) (r ++ l) := by
  refine ⟨List.perm_append_comm, fun x => ?_⟩
  rw [List.filter_append, List.filter_append]
  -- nothing is the same as elements of both lists
  by_cases hl : l.filter (same lt x) = []
  · rw [hl, List.append_nil, List.nil_append]
  · obtain ⟨a, ha⟩ := List.exists_mem_of_ne_nil _ hl
    obtain ⟨ha, hxa⟩ := List.mem_filter.mp ha
    have hr : r.filter (same lt x) = [] := by
      refine List.filter_eq_nil_iff.mpr fun b hb hxb => ?_
      simp only [same, Bool.and_eq_true, Bool.not_eq_true'] at hxa hxb
      have hbx := h.lt_of_lt_of_le (hlt a ha b hb) hxa.1
      rw [hxb.2] at hbx
      cases hbx
    rw [hr, List.append_nil, List.nil_append]

/-! ## Order -/

/-- No element is below one in front of it. -/
abbrev IsOrdered (lt : α → α → Bool) (l : List α) : Prop := l.Pairwise fun a b => lt b a = false

/-- An arrangement of elements in order, in which those that are the same stay as they were. -/
structure Sorts (lt : α → α → Bool) (l m : List α) : Prop extends Keeps lt l m where
  ordered : IsOrdered lt m

namespace Sorts

theorem refl (h : IsOrdered lt l) : Sorts lt l l := ⟨.refl l, h⟩

theorem of_keeps (h : Keeps lt l l') (h' : Sorts lt l' m) : Sorts lt l m :=
  ⟨h.trans h'.toKeeps, h'.ordered⟩

/-- Two arrangements in order make one, if no element of the second is below one of the first. -/
theorem append {m₁ m₂ : List α} (h₁ : Sorts lt l₁ m₁) (h₂ : Sorts lt l₂ m₂)
    (hle : ∀ a ∈ l₁, ∀ b ∈ l₂, lt b a = false) : Sorts lt (l₁ ++ l₂) (m₁ ++ m₂) := by
  refine ⟨h₁.toKeeps.append h₂.toKeeps, List.pairwise_append.mpr ⟨h₁.ordered, h₂.ordered, ?_⟩⟩
  exact fun a ha b hb => hle a (h₁.mem_iff.mp ha) b (h₂.mem_iff.mp hb)

theorem reverse (h : Sorts (fun a b => lt b a) l.reverse m) : Sorts lt l m.reverse :=
  ⟨h.toKeeps.reverse, List.pairwise_reverse.mpr h.ordered⟩

end Sorts

/-- Elements are put in order in one way only, if those that are the same stay as they were. -/
theorem eq_of_isOrdered (hirrefl : ∀ a, lt a a = false) (hperm : l.Perm m)
    (hfilter : ∀ x ∈ l, l.filter (same lt x) = m.filter (same lt x)) (hl : IsOrdered lt l)
    (hm : IsOrdered lt m) : l = m := by
  induction l generalizing m with
  | nil => exact (List.nil_perm.mp hperm).symm
  | cons a rest ih =>
      cases m with
      | nil => exact absurd hperm.symm (List.not_perm_nil_cons a rest)
      | cons b rest' =>
          obtain ⟨ha, hrest⟩ := List.pairwise_cons.mp hl
          obtain ⟨hb, hrest'⟩ := List.pairwise_cons.mp hm
          -- neither of the elements in front is below the other
          have hba : lt b a = false := by
            rcases List.mem_cons.mp (hperm.mem_iff.mpr List.mem_cons_self) with rfl | hmem
            · exact hirrefl b
            · exact ha b hmem
          have hab : lt a b = false := by
            rcases List.mem_cons.mp (hperm.mem_iff.mp List.mem_cons_self) with rfl | hmem
            · exact hirrefl a
            · exact hb a hmem
          have hfront := hfilter a List.mem_cons_self
          rw [List.filter_cons_of_pos (by simp [same, hirrefl]),
            List.filter_cons_of_pos (by simp [same, hab, hba])] at hfront
          obtain ⟨rfl, -⟩ := List.cons.inj hfront
          refine congrArg (a :: ·) (ih (List.perm_cons a |>.mp hperm) (fun x hx => ?_) hrest hrest')
          have hx := hfilter x (List.mem_cons_of_mem a hx)
          rw [List.filter_cons, List.filter_cons] at hx
          split at hx
          · exact (List.cons.inj hx).2
          · exact hx

end Sorting

end QueryPlanner
