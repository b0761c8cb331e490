/-
# The order of sorted rows

Rows are sorted by keys whose values may be of several types. Values that cannot be compared count as
the same, and so do an integer and the double that it is rounded to. The order is reflexive, and turns
round when it is read from the other side, but it is not transitive for all values: two integers that
differ may both be the same as a double.

* `Scalar.ordering` : the order of two values, where what cannot be compared is the same;
* `Scalar.Coherent` : values among which this makes no difference;
* `Scalar.isTransitiveOn_ordering_iff` : the order is transitive on these, and on no other values;
* `Scalar.coherent_admits` : values of one type are coherent;
* `SortKey.IsStableSort` : rows in order, where rows of equal keys stay as they were;
* `SortKey.isPreorder_iff_coherent` : the order of rows, and what sorting comes to.
-/
import QueryPlanner.Proofs.Rounding
import QueryPlanner.Proofs.Sorting.Images
import QueryPlanner.Proofs.Typing

namespace QueryPlanner

/-- A comparison is transitive on the values of a set. -/
def IsTransitiveOn {α : Type} (cmp : α → α → Ordering) (S : α → Prop) : Prop :=
  ∀ a b c, S a → S b → S c → (cmp a b).isLE → (cmp b c).isLE → (cmp a c).isLE

namespace IsTransitiveOn

variable {α : Type} {cmp cmp' : α → α → Ordering} {S T : α → Prop}

theorem mono (h : IsTransitiveOn cmp S) (hle : ∀ a, T a → S a) : IsTransitiveOn cmp T :=
  fun a b c ha hb hc => h a b c (hle a ha) (hle b hb) (hle c hc)

theorem congr (h : IsTransitiveOn cmp S) (heq : ∀ a b, S a → S b → cmp' a b = cmp a b) :
    IsTransitiveOn cmp' S := by
  intro a b c ha hb hc hab hbc
  rw [heq a b ha hb] at hab
  rw [heq b c hb hc] at hbc
  rw [heq a c ha hc]
  exact h a b c ha hb hc hab hbc

/-- A comparison is transitive whichever way it is read. -/
theorem flip (h : IsTransitiveOn cmp S) : IsTransitiveOn (fun a b => cmp b a) S :=
  fun a b c ha hb hc hab hbc => h c b a hc hb ha hbc hab

end IsTransitiveOn

/-- What is the same from both sides is no order. -/
theorem eq_of_eq_swap {o : Ordering} (h : o = o.swap) : o = .eq := by
  cases o with
  | eq => rfl
  | _ => cases h

namespace Double

variable {x : Double}

/-- A not-a-number is in the place above all others. -/
theorem isNaN_iff : x.isNaN = true ↔ nan.key ≤ x.canonical.key := by
  have hnan : nan.key = 0x7ff8000000000000 := by decide
  constructor
  · intro h
    rw [canonical_of_isNaN h]
  · intro h
    by_contra hn
    rw [hnan] at h
    unfold canonical at h
    rw [if_neg hn] at h
    unfold isNaN infinity at hn
    rw [decide_eq_true_iff] at hn
    split at h
    · exact absurd h (by decide)
    · unfold key at h
      split at h <;> omega

end Double

namespace Scalar

/-! ## Comparing -/

/-- What kind of value a scalar is. -/
inductive Kind where
  | truth
  | number
  | text
  | date
  deriving DecidableEq

/-- The kind of a value that is not missing. -/
def kind? : Scalar → Option Kind
  | null => none
  | bool _ => some .truth
  | int _ => some .number
  | float _ => some .number
  | text _ => some .text
  | date _ => some .date

/-- The order of two values, where what cannot be compared is the same. -/
def ordering (a b : Scalar) : Ordering := (a.compare b).getD .eq

variable {a b c : Scalar}

theorem compare_int_float (m : Int64) (x : Double) : (int m).compare (float x) =
    if x.isNaN then none else some (Ord.compare (Double.nearestKey m.toInt) x.canonical.key) := by
  obtain ⟨hnan, hkey⟩ := key_nearest m
  show compareByValue (nearest m) x = _
  unfold compareByValue Double.compare
  rw [hnan, hkey]
  rfl

theorem compare_float_int (x : Double) (n : Int64) : (float x).compare (int n) =
    if x.isNaN then none else some (Ord.compare x.canonical.key (Double.nearestKey n.toInt)) := by
  obtain ⟨hnan, hkey⟩ := key_nearest n
  show compareByValue x (nearest n) = _
  unfold compareByValue Double.compare
  rw [hnan, hkey, Bool.or_false]

/-- A comparison turns round when it is read from the other side. -/
theorem compare_swap (a b : Scalar) : b.compare a = (a.compare b).map Ordering.swap := by
  cases a <;> cases b
  case int.float m x =>
    rw [compare_int_float, compare_float_int]
    split
    · rfl
    · exact congrArg some Std.OrientedOrd.eq_swap
  case float.int x n =>
    rw [compare_int_float, compare_float_int]
    split
    · rfl
    · exact congrArg some Std.OrientedOrd.eq_swap
  case bool.bool => exact congrArg some Std.OrientedOrd.eq_swap
  case int.int => exact congrArg some Std.OrientedOrd.eq_swap
  case float.float => exact congrArg some Std.OrientedOrd.eq_swap
  case text.text => exact congrArg some Std.OrientedOrd.eq_swap
  case date.date => exact congrArg some Std.OrientedOrd.eq_swap
  all_goals rfl

theorem ordering_swap (a b : Scalar) : b.ordering a = (a.ordering b).swap := by
  unfold ordering
  rw [compare_swap a b]
  cases a.compare b <;> rfl

theorem ordering_of_compare {o : Ordering} (h : a.compare b = some o) : a.ordering b = o := by
  unfold ordering
  rw [h]
  rfl

/-- Only values of one kind can be compared. -/
theorem kind?_eq_of_compare {o : Ordering} (h : a.compare b = some o) : a.kind? = b.kind? := by
  cases a <;> cases b <;> first | rfl | cases h

theorem ordering_of_kind?_ne (h : a.kind? ≠ b.kind?) : a.ordering b = .eq := by
  unfold ordering
  rcases hcompare : a.compare b with _ | o
  · rfl
  · exact absurd (kind?_eq_of_compare hcompare) h

theorem isLE_int_int {m n : Int64} : ((int m).ordering (int n)).isLE ↔ m.toInt ≤ n.toInt :=
  Int.isLE_compare

theorem isLE_float_float {x y : Double} :
    ((float x).ordering (float y)).isLE ↔ x.canonical.key ≤ y.canonical.key :=
  Int.isLE_compare

theorem isLE_int_float {m : Int64} {x : Double} : ((int m).ordering (float x)).isLE ↔
    x.isNaN = true ∨ Double.nearestKey m.toInt ≤ x.canonical.key := by
  unfold ordering
  rw [compare_int_float]
  split
  · next h => exact ⟨fun _ => .inl h, fun _ => rfl⟩
  · next h =>
    exact Int.isLE_compare.trans ⟨.inr, fun hor => hor.resolve_left h⟩

theorem isLE_float_int {x : Double} {n : Int64} : ((float x).ordering (int n)).isLE ↔
    x.isNaN = true ∨ x.canonical.key ≤ Double.nearestKey n.toInt := by
  unfold ordering
  rw [compare_float_int]
  split
  · next h => exact ⟨fun _ => .inl h, fun _ => rfl⟩
  · next h =>
    exact Int.isLE_compare.trans ⟨.inr, fun hor => hor.resolve_left h⟩

/-! ## Coherent values -/

/-- Values among which what cannot be compared, and what is rounded, makes no difference: if two of
them have an order, all that are not missing are of one kind. No double is nearest to two integers.
An integer beside a not-a-number is above all other numbers. -/
structure Coherent (S : Scalar → Prop) : Prop where
  kind : ∀ a b c, S a → S b → S c → a.ordering b = .lt → c ≠ null → c.kind? = a.kind?
  nearest : ∀ x m n, S (float x) → S (int m) → S (int n) → (int m).compare (float x) = some .eq →
    (int n).compare (float x) = some .eq → m = n
  notANumber : ∀ x n v o, S (float x) → x.isNaN = true → S (int n) → S v →
    v.compare (int n) = some o → v = int n ∨ o = .lt

variable {S : Scalar → Prop}

/-- Fewer values are coherent as well. -/
theorem Coherent.mono {T : Scalar → Prop} (h : Coherent S) (hle : ∀ v, T v → S v) : Coherent T where
  kind a b c ha hb hc := h.kind a b c (hle a ha) (hle b hb) (hle c hc)
  nearest x m n hx hm hn := h.nearest x m n (hle _ hx) (hle _ hm) (hle _ hn)
  notANumber x n v o hx hnan hn hv := h.notANumber x n v o (hle _ hx) hnan (hle _ hn) (hle v hv)

/-- Values that are not missing. -/
def present (S : Scalar → Prop) (v : Scalar) : Prop := S v ∧ v ≠ null

section Numbers

variable {m n : Int64} {x y : Double}

/-- Beside a not-a-number, other doubles are below all integers. -/
theorem Coherent.key_lt (h : Coherent S) (hx : S (float x)) (hnan : x.isNaN = true) (hn : S (int n))
    (hy : S (float y)) (hnumber : ¬ y.isNaN = true) :
    y.canonical.key < Double.nearestKey n.toInt := by
  have hcompare := compare_float_int y n
  rw [if_neg hnumber] at hcompare
  exact Int.compare_eq_lt.mp ((h.notANumber x n _ _ hx hnan hn hy hcompare).resolve_left (by nofun))

/-- Beside a not-a-number, there is one integer. -/
theorem Coherent.int_eq (h : Coherent S) (hx : S (float x)) (hnan : x.isNaN = true) (hm : S (int m))
    (hn : S (int n)) : m = n := by
  rcases h.notANumber x n _ _ hx hnan hn hm rfl with heq | hlt
  · exact int.inj heq
  · rcases h.notANumber x m _ _ hx hnan hm hn rfl with heq | hlt'
    · exact (int.inj heq).symm
    · have hmn := Int.compare_eq_lt.mp hlt
      have hnm := Int.compare_eq_lt.mp hlt'
      omega

/-- Integers that are rounded to the same double as another number are the same. -/
theorem Coherent.int_le (h : Coherent S) (hx : S (float x)) (hm : S (int m)) (hn : S (int n))
    (hmx : ((int m).ordering (float x)).isLE) (hxn : ((float x).ordering (int n)).isLE) :
    m.toInt ≤ n.toInt := by
  rw [isLE_int_float] at hmx
  rw [isLE_float_int] at hxn
  by_cases hnan : x.isNaN = true
  · rw [h.int_eq hx hnan hm hn]
  · replace hmx := hmx.resolve_left hnan
    replace hxn := hxn.resolve_left hnan
    by_contra hlt
    -- the larger integer is not rounded to a smaller double, so that both come to this one
    have hmono := Double.nearestKey_mono (m := n.toInt) (n := m.toInt) (by omega)
    have hm' : (int m).compare (float x) = some .eq := by
      rw [compare_int_float, if_neg hnan]
      exact congrArg some (Int.compare_eq_eq.mpr (by omega))
    have hn' : (int n).compare (float x) = some .eq := by
      rw [compare_int_float, if_neg hnan]
      exact congrArg some (Int.compare_eq_eq.mpr (by omega))
    rw [h.nearest x m n hx hm hn hm' hn'] at hlt
    omega

/-- The order is transitive on values of one kind. -/
theorem Coherent.isLE_trans (h : Coherent S) (ha : S a) (hb : S b) (hc : S c)
    (hkind : a.kind? = b.kind?) (hkind' : b.kind? = c.kind?) (hab : (a.ordering b).isLE)
    (hbc : (b.ordering c).isLE) : (a.ordering c).isLE := by
  cases a <;> cases b <;> first | (cases hkind; done) | skip
  all_goals cases c <;> first | (cases hkind'; done) | skip
  case null.null.null => rfl
  case bool.bool.bool => exact Std.TransOrd.isLE_trans hab hbc
  case text.text.text => exact Std.TransOrd.isLE_trans hab hbc
  case date.date.date => exact Std.TransOrd.isLE_trans hab hbc
  case int.int.int => exact Std.TransOrd.isLE_trans hab hbc
  case float.float.float => exact Std.TransOrd.isLE_trans hab hbc
  case int.int.float m n x =>
    rw [isLE_int_int] at hab
    rw [isLE_int_float] at hbc ⊢
    exact hbc.imp_right (Int.le_trans (Double.nearestKey_mono hab))
  case float.int.int x m n =>
    rw [isLE_int_int] at hbc
    rw [isLE_float_int] at hab ⊢
    exact hab.imp_right fun hle => Int.le_trans hle (Double.nearestKey_mono hbc)
  case int.float.int m x n => exact isLE_int_int.mpr (h.int_le hb ha hc hab hbc)
  case int.float.float m x y =>
    rw [isLE_int_float] at hab ⊢
    rw [isLE_float_float] at hbc
    rw [Double.isNaN_iff] at hab ⊢
    omega
  case float.float.int x y n =>
    rw [isLE_float_int] at hbc ⊢
    rw [isLE_float_float] at hab
    by_cases hnan : x.isNaN = true
    · exact .inl hnan
    · refine .inr (hbc.elim (fun hy => ?_) (Int.le_trans hab))
      exact Int.le_of_lt (h.key_lt hb hy hc ha hnan)
  case float.int.float x n y =>
    rw [isLE_float_int] at hab
    rw [isLE_int_float] at hbc
    rw [isLE_float_float]
    by_cases hy : y.isNaN = true
    · rw [Double.canonical_of_isNaN hy]
      exact Double.key_canonical_le x
    · replace hbc := hbc.resolve_left hy
      rcases hab with hx | hxn
      · exact absurd (h.key_lt ha hx hb hc hy) (Int.not_lt_of_ge hbc)
      · exact Int.le_trans hxn hbc

/-- The order is transitive on coherent values. -/
theorem Coherent.isTransitiveOn (h : Coherent S) : IsTransitiveOn ordering (present S) := by
  rintro a b c ⟨ha, hane⟩ ⟨hb, hbne⟩ ⟨hc, hcne⟩ hab hbc
  by_contra hgt
  have hlt : c.ordering a = .lt := by
    rw [ordering_swap a c]
    cases hac : a.ordering c with
    | gt => rfl
    | _ => exact absurd (by rw [hac]; rfl) hgt
  have hkind := h.kind c a b hc ha hb hlt hbne
  have hkind' := h.kind c a a hc ha ha hlt hane
  exact hgt (h.isLE_trans ha hb hc (hkind'.trans hkind.symm) hkind hab hbc)

end Numbers

/-- Values that have an order are not missing. -/
theorem ne_null_of_ordering (h : a.ordering b = .lt) : a ≠ null ∧ b ≠ null := by
  constructor
  · rintro rfl
    cases h
  · rintro rfl
    cases a <;> cases h

theorem toInt_le_of_isTransitiveOn (h : IsTransitiveOn ordering (present S)) {x : Double}
    {m n : Int64} (hx : S (float x)) (hm : S (int m)) (hn : S (int n))
    (hmx : ((int m).ordering (float x)).isLE) (hxn : ((float x).ordering (int n)).isLE) :
    m.toInt ≤ n.toInt :=
  isLE_int_int.mp (h _ _ _ ⟨hm, nofun⟩ ⟨hx, nofun⟩ ⟨hn, nofun⟩ hmx hxn)

/-- Values on which the order is transitive are coherent. -/
theorem coherent_of_isTransitiveOn (h : IsTransitiveOn ordering (present S)) : Coherent S where
  kind a b c ha hb hc hlt hne := by
    by_contra hkind
    obtain ⟨hane, hbne⟩ := ne_null_of_ordering hlt
    have hab : a.kind? = b.kind? := by
      by_contra hne
      rw [ordering_of_kind?_ne hne] at hlt
      cases hlt
    -- the value of another kind is the same as both
    have hbc : (b.ordering c).isLE := by
      rw [ordering_of_kind?_ne fun heq => hkind (hab.trans heq).symm]
      rfl
    have hca : (c.ordering a).isLE := by
      rw [ordering_of_kind?_ne hkind]
      rfl
    have hba := h b c a ⟨hb, hbne⟩ ⟨hc, hne⟩ ⟨ha, hane⟩ hbc hca
    rw [ordering_swap a b, hlt] at hba
    cases hba
  nearest x m n hx hm hn hmx hnx := by
    have hm' : (int m).ordering (float x) = .eq := ordering_of_compare hmx
    have hn' : (int n).ordering (float x) = .eq := ordering_of_compare hnx
    have hle := toInt_le_of_isTransitiveOn h hx hm hn (by rw [hm']; rfl)
      (by rw [ordering_swap (int n), hn']; rfl)
    have hge := toInt_le_of_isTransitiveOn h hx hn hm (by rw [hn']; rfl)
      (by rw [ordering_swap (int m), hm']; rfl)
    exact Int64.toInt_inj.mp (Int.le_antisymm hle hge)
  notANumber x n v o hx hnan hn hv hcompare := by
    cases v with
    | int k =>
        have hle := toInt_le_of_isTransitiveOn h hx hv hn (isLE_int_float.mpr (.inl hnan))
          (isLE_float_int.mpr (.inl hnan))
        have hge := toInt_le_of_isTransitiveOn h hx hn hv (isLE_int_float.mpr (.inl hnan))
          (isLE_float_int.mpr (.inl hnan))
        exact .inl (congrArg int (Int64.toInt_inj.mp (Int.le_antisymm hle hge)))
    | float y =>
        rw [compare_float_int] at hcompare
        split at hcompare
        · cases hcompare
        · next hy =>
          refine .inr ((Option.some.inj hcompare).symm.trans (Int.compare_eq_lt.mpr ?_))
          by_contra hge
          -- otherwise the not-a-number is below a number, by way of the integer
          have hle := h (float x) (int n) (float y) ⟨hx, nofun⟩ ⟨hn, nofun⟩ ⟨hv, nofun⟩
            (isLE_float_int.mpr (.inl hnan)) (isLE_int_float.mpr (.inr (Int.le_of_not_gt hge)))
          rw [isLE_float_float, Double.canonical_of_isNaN hnan] at hle
          exact hy (Double.isNaN_iff.mpr hle)
    | _ => cases hcompare

/-- Values of one type are coherent. -/
theorem coherent_admits (type : DataType) : Coherent fun v => type.admits v = true where
  kind a b c ha _ hc hlt hne := by
    obtain ⟨hane, -⟩ := ne_null_of_ordering hlt
    cases type <;> cases a <;> cases c <;> first | rfl | contradiction
  nearest x m n hx hm _ _ _ := by
    cases type <;> contradiction
  notANumber x n v o hx _ hn _ _ := by
    cases type <;> contradiction

/-- The order is transitive on coherent values, and on no others. -/
theorem isTransitiveOn_ordering_iff : IsTransitiveOn ordering (present S) ↔ Coherent S :=
  ⟨coherent_of_isTransitiveOn, Coherent.isTransitiveOn⟩

end Scalar

/-! ## Keys -/

namespace SortKey

open Scalar (ordering present Coherent)

variable {a b c : Scalar} {S : Scalar → Prop}

/-- The order of two values for a key, read from the other side. -/
theorem compareValues_swap (key : SortKey) (a b : Scalar) :
    key.compareValues b a = (key.compareValues a b).swap := by
  unfold compareValues
  cases a.isNull <;> cases b.isNull
  · dsimp only
    change (if key.ascending then b.ordering a else (b.ordering a).swap) =
      (if key.ascending then a.ordering b else (a.ordering b).swap).swap
    rw [Scalar.ordering_swap a b]
    split <;> rfl
  · dsimp only
    split <;> rfl
  · dsimp only
    split <;> rfl
  · rfl

theorem compareValues_self (key : SortKey) (a : Scalar) : key.compareValues a a = .eq :=
  eq_of_eq_swap (key.compareValues_swap a a)

theorem isNull_of_ne (h : a ≠ .null) : a.isNull = false := by
  cases a with
  | null => exact absurd rfl h
  | _ => rfl

/-- Values that are not missing are compared for a key as they are, or the other way round. -/
theorem compareValues_of_ne (key : SortKey) (ha : a ≠ .null) (hb : b ≠ .null) :
    key.compareValues a b = if key.ascending then a.ordering b else b.ordering a := by
  unfold compareValues
  rw [isNull_of_ne ha, isNull_of_ne hb, Scalar.ordering_swap a b]
  rfl

theorem compareValues_null_left (key : SortKey) (hb : b ≠ .null) :
    key.compareValues .null b = if key.nullsFirst then .lt else .gt := by
  unfold compareValues
  rw [isNull_of_ne hb]
  rfl

theorem compareValues_null_right (key : SortKey) (ha : a ≠ .null) :
    key.compareValues a .null = if key.nullsFirst then .gt else .lt := by
  unfold compareValues
  rw [isNull_of_ne ha]
  rfl

/-- Missing values are in one place before or behind all others, whichever way these are ordered. -/
theorem isTransitiveOn_of_present {key : SortKey}
    (h : IsTransitiveOn key.compareValues (present S)) : IsTransitiveOn key.compareValues S := by
  intro a b c ha hb hc hab hbc
  rcases eq_or_ne a .null with rfl | hane
  · rcases eq_or_ne c .null with rfl | hcne
    · rw [compareValues_self]
      rfl
    · rcases eq_or_ne b .null with rfl | hbne
      · exact hbc
      · rw [compareValues_null_left key hbne] at hab
        rw [compareValues_null_left key hcne]
        exact hab
  · rcases eq_or_ne b .null with rfl | hbne
    · rcases eq_or_ne c .null with rfl | hcne
      · exact hab
      · rw [compareValues_null_right key hane] at hab
        rw [compareValues_null_left key hcne] at hbc
        cases hfirst : key.nullsFirst with
        | true =>
            rw [hfirst] at hab
            cases hab
        | false =>
            rw [hfirst] at hbc
            cases hbc
    · rcases eq_or_ne c .null with rfl | hcne
      · rw [compareValues_null_right key hbne] at hbc
        rw [compareValues_null_right key hane]
        exact hbc
      · exact h a b c ⟨ha, hane⟩ ⟨hb, hbne⟩ ⟨hc, hcne⟩ hab hbc

/-- Whichever way values are ordered, the order is transitive or not. -/
theorem isTransitiveOn_present_iff (key : SortKey) :
    IsTransitiveOn key.compareValues (present S) ↔ IsTransitiveOn ordering (present S) := by
  have hkey : ∀ a b, present S a → present S b → key.compareValues a b =
      if key.ascending then a.ordering b else b.ordering a :=
    fun a b ha hb => key.compareValues_of_ne ha.2 hb.2
  cases hascending : key.ascending with
  | true =>
      rw [hascending] at hkey
      exact ⟨fun h => h.congr fun a b ha hb => (hkey a b ha hb).symm, fun h => h.congr hkey⟩
  | false =>
      rw [hascending] at hkey
      exact ⟨fun h => h.flip.congr fun a b ha hb => (hkey b a hb ha).symm, fun h => h.flip.congr hkey⟩

/-- The order of values for a key is transitive if these are coherent. -/
theorem isTransitiveOn_compareValues_iff (key : SortKey) :
    IsTransitiveOn key.compareValues S ↔ Coherent S := by
  rw [← Scalar.isTransitiveOn_ordering_iff, ← key.isTransitiveOn_present_iff]
  exact ⟨fun h => h.mono fun _ hv => hv.1, isTransitiveOn_of_present⟩

/-! ## Rows -/

/-- The keys of a row that takes its values from a set for each key. -/
def Drawn (columns : List (SortKey × (Scalar → Prop))) (as : List Scalar) : Prop :=
  List.Forall₂ (fun column v => column.2 v) columns as

theorem compareKeys_swap (order : List SortKey) (as bs : List Scalar) :
    compareKeys order bs as = (compareKeys order as bs).swap := by
  induction order generalizing as bs with
  | nil => rfl
  | cons key keys ih =>
      cases as with
      | nil => cases bs <;> rfl
      | cons a as =>
          cases bs with
          | nil => rfl
          | cons b bs =>
              unfold compareKeys
              rw [key.compareValues_swap a b, ih as bs, Ordering.swap_then]

theorem compareKeys_self (order : List SortKey) (as : List Scalar) : compareKeys order as as = .eq :=
  eq_of_eq_swap (compareKeys_swap order as as)

/-- What is the same by the first key is compared by the others. -/
theorem isTransitiveOn_compareKeys_cons {key : SortKey} {keys : List SortKey} {T : List Scalar → Prop}
    (hkey : IsTransitiveOn key.compareValues S) (hkeys : IsTransitiveOn (compareKeys keys) T)
    {as bs cs : List Scalar} (ha : S a) (hb : S b) (hc : S c) (has : T as) (hbs : T bs) (hcs : T cs)
    (hab : (compareKeys (key :: keys) (a :: as) (b :: bs)).isLE)
    (hbc : (compareKeys (key :: keys) (b :: bs) (c :: cs)).isLE) :
    (compareKeys (key :: keys) (a :: as) (c :: cs)).isLE := by
  unfold compareKeys at hab hbc ⊢
  rw [Ordering.isLE_then_iff_and] at hab hbc ⊢
  obtain ⟨hab, hab'⟩ := hab
  obtain ⟨hbc, hbc'⟩ := hbc
  have hac := hkey a b c ha hb hc hab hbc
  refine ⟨hac, ?_⟩
  cases houter : key.compareValues a c with
  | lt => exact .inl rfl
  | gt =>
      rw [houter] at hac
      cases hac
  | eq =>
      -- if the outer values are the same, the one between them is the same as both
      have hca : (key.compareValues c a).isLE := by
        rw [key.compareValues_swap a c, houter]
        rfl
      have hba := hkey b c a hb hc ha hbc hca
      have hcb := hkey c a b hc ha hb hca hab
      rw [key.compareValues_swap a b] at hba
      rw [key.compareValues_swap b c] at hcb
      rw [Ordering.eq_eq_of_isLE_of_isLE_swap hab hba] at hab'
      rw [Ordering.eq_eq_of_isLE_of_isLE_swap hbc hcb] at hbc'
      exact .inr (hkeys as bs cs has hbs hcs (hab'.resolve_left nofun) (hbc'.resolve_left nofun))

/-- Where the values of each key are some, there are rows that take theirs from them. -/
theorem exists_drawn {columns : List (SortKey × (Scalar → Prop))}
    (hne : ∀ column ∈ columns, ∃ v, column.2 v) : ∃ as, Drawn columns as := by
  induction columns with
  | nil => exact ⟨[], .nil⟩
  | cons column rest ih =>
      obtain ⟨⟨v, hv⟩, hrest⟩ := List.forall_mem_cons.mp hne
      obtain ⟨as, has⟩ := ih hrest
      exact ⟨v :: as, .cons hv has⟩

/-- The order of rows is transitive if the values of each key are coherent. -/
theorem isTransitiveOn_compareKeys {columns : List (SortKey × (Scalar → Prop))}
    (h : ∀ column ∈ columns, Coherent column.2) :
    IsTransitiveOn (compareKeys (columns.map Prod.fst)) (Drawn columns) := by
  induction columns with
  | nil => exact fun _ _ _ _ _ _ _ _ => rfl
  | cons column rest ih =>
      obtain ⟨hcolumn, hrest⟩ := List.forall_mem_cons.mp h
      have hkey := column.1.isTransitiveOn_compareValues_iff.mpr hcolumn
      rintro _ _ _ (_ | ⟨ha, has⟩) (_ | ⟨hb, hbs⟩) (_ | ⟨hc, hcs⟩) hab hbc
      exact isTransitiveOn_compareKeys_cons hkey (ih hrest) ha hb hc has hbs hcs hab hbc

/-- Where the values of each key are some, it is not transitive otherwise. -/
theorem isTransitiveOn_compareKeys_iff {columns : List (SortKey × (Scalar → Prop))}
    (hne : ∀ column ∈ columns, ∃ v, column.2 v) :
    IsTransitiveOn (compareKeys (columns.map Prod.fst)) (Drawn columns) ↔
      ∀ column ∈ columns, Coherent column.2 := by
  refine ⟨fun h => ?_, isTransitiveOn_compareKeys⟩
  induction columns with
  | nil => exact nofun
  | cons column rest ih =>
      obtain ⟨key, S⟩ := column
      obtain ⟨⟨v, hv⟩, hrest⟩ := List.forall_mem_cons.mp hne
      obtain ⟨ds, hds⟩ := exists_drawn hrest
      -- the values of one key are compared where those of all others are equal
      refine List.forall_mem_cons.mpr ⟨?_, ih hrest ?_⟩
      · have hkeys : ∀ x y, compareKeys (key :: rest.map Prod.fst) (x :: ds) (y :: ds) =
            key.compareValues x y := fun x y => by
          rw [compareKeys, compareKeys_self, Ordering.then_eq]
        refine key.isTransitiveOn_compareValues_iff.mp fun a b c ha hb hc hab hbc => ?_
        have hac := h (a :: ds) (b :: ds) (c :: ds) (.cons ha hds) (.cons hb hds) (.cons hc hds)
        rw [List.map_cons, hkeys, hkeys, hkeys] at hac
        exact hac hab hbc
      · have hkeys : ∀ xs ys, compareKeys (key :: rest.map Prod.fst) (v :: xs) (v :: ys) =
            compareKeys (rest.map Prod.fst) xs ys := fun xs ys => by
          rw [compareKeys, compareValues_self]
          rfl
        intro as bs cs has hbs hcs hab hbc
        have hac := h (v :: as) (v :: bs) (v :: cs) (.cons hv has) (.cons hv hbs) (.cons hv hcs)
        rw [List.map_cons, hkeys, hkeys, hkeys] at hac
        exact hac hab hbc

/-! ## Sorting -/

/-- Rows in order, where rows of equal keys stay as they were. -/
structure IsStableSort (order : List SortKey) (keyed sorted : List (List Scalar × Row)) : Prop where
  perm : sorted.Perm keyed
  ordered : sorted.Pairwise fun x y => (compareKeys order x.1 y.1).isLE
  stable : ∀ x ∈ keyed, sorted.filter (fun y => compareKeys order x.1 y.1 == .eq) =
    keyed.filter fun y => compareKeys order x.1 y.1 == .eq

section Sorting

variable {order : List SortKey} {keyed sorted : List (List Scalar × Row)} {T : List Scalar → Prop}

theorem isLT_eq_false_iff {as bs : List Scalar} :
    (compareKeys order bs as).isLT = false ↔ (compareKeys order as bs).isLE := by
  rw [compareKeys_swap order as bs]
  cases compareKeys order as bs <;> decide

/-- Rows are the same for sorting if their keys are equal. -/
theorem same_isLT (x : List Scalar × Row) :
    Sorting.same (fun x y => (compareKeys order x.1 y.1).isLT) x =
      fun y => compareKeys order x.1 y.1 == .eq := by
  funext y
  show (!(compareKeys order x.1 y.1).isLT && !(compareKeys order y.1 x.1).isLT) = _
  rw [compareKeys_swap order x.1 y.1]
  cases compareKeys order x.1 y.1 <;> rfl

/-- Rows that are not above one another in order are not below one another the other way round. -/
theorem isOrdered_iff : Sorting.IsOrdered (fun x y => (compareKeys order x.1 y.1).isLT) sorted ↔
    sorted.Pairwise fun x y => (compareKeys order x.1 y.1).isLE :=
  List.Pairwise.iff fun _ _ => isLT_eq_false_iff

/-- Rows whose keys are compared transitively are sorted. -/
theorem isStableSort_sortKeyed (hT : IsTransitiveOn (compareKeys order) T)
    (hkeyed : ∀ x ∈ keyed, T x.1) :
    ∃ sorted, sortKeyed order keyed = some sorted ∧ IsStableSort order keyed sorted := by
  have hweak : Sorting.IsWeakOrder fun x y : {x // x ∈ keyed} =>
      (compareKeys order x.1.1 y.1.1).isLT := by
    refine ⟨fun x y hlt => ?_, fun x y z hyx hzy => ?_⟩
    · rw [compareKeys_swap order x.1.1 y.1.1]
      cases hxy : compareKeys order x.1.1 y.1.1 with
      | lt => rfl
      | _ =>
          rw [hxy] at hlt
          cases hlt
    · rw [isLT_eq_false_iff] at hyx hzy ⊢
      exact hT _ _ _ (hkeyed x.1 x.2) (hkeyed y.1 y.2) (hkeyed z.1 z.2) hyx hzy
  obtain ⟨sorted, hsorted, hperm, hordered, hstable⟩ :=
    @Sorting.exists_sort_of_mem _ (fun x y => (compareKeys order x.1 y.1).isLT) keyed hweak
  refine ⟨sorted, hsorted, hperm, isOrdered_iff.mp hordered, fun x hx => ?_⟩
  rw [← same_isLT]
  exact hstable x hx

/-- Rows are put in order in one way only. -/
theorem IsStableSort.unique {sorted' : List (List Scalar × Row)} (h : IsStableSort order keyed sorted)
    (h' : IsStableSort order keyed sorted') : sorted = sorted' := by
  have hirrefl : ∀ x : List Scalar × Row, (compareKeys order x.1 x.1).isLT = false := fun x => by
    rw [compareKeys_self]
    rfl
  refine Sorting.eq_of_isOrdered hirrefl (h.perm.trans h'.perm.symm) (fun x hx => ?_)
    (isOrdered_iff.mpr h.ordered) (isOrdered_iff.mpr h'.ordered)
  have hmem := h.perm.mem_iff.mp hx
  rw [same_isLT]
  exact (h.stable x hmem).trans (h'.stable x hmem).symm

/-- Rows that were in order, those of equal keys among them, do not change places. -/
theorem IsStableSort.sublist (h : IsStableSort order keyed sorted) {x y : List Scalar × Row}
    (hxy : [x, y].Sublist keyed) (hle : (compareKeys order x.1 y.1).isLE) :
    [x, y].Sublist sorted := by
  have hx : x ∈ keyed := hxy.subset (by simp)
  have hy : y ∈ keyed := hxy.subset (by simp)
  cases hcompare : compareKeys order x.1 y.1 with
  | gt =>
      rw [hcompare] at hle
      cases hle
  | eq =>
      have hequal := hxy.filter fun z => compareKeys order x.1 z.1 == .eq
      rw [← h.stable x hx, List.filter_cons_of_pos (by rw [compareKeys_self]; rfl),
        List.filter_cons_of_pos (by rw [hcompare]; rfl), List.filter_nil] at hequal
      exact hequal.trans List.filter_sublist
  | lt =>
      obtain ⟨front, back, rfl⟩ := List.append_of_mem (h.perm.mem_iff.mpr hx)
      -- the row that is above the other one is not in front of it
      have hback : y ∈ back := by
        rcases List.mem_append.mp (h.perm.mem_iff.mpr hy) with hfront | hmem
        · have hyx := (List.pairwise_append.mp h.ordered).2.2 y hfront x List.mem_cons_self
          rw [compareKeys_swap order x.1 y.1, hcompare] at hyx
          cases hyx
        · rcases List.mem_cons.mp hmem with rfl | hmem
          · rw [compareKeys_self] at hcompare
            cases hcompare
          · exact hmem
      exact ((List.singleton_sublist.mpr hback).cons_cons x).trans (List.sublist_append_right front _)

/-- Three rows each of which is not above the next one stay where they are. -/
theorem sortKeyed_of_isLE {x y z : List Scalar × Row} (hxy : (compareKeys order x.1 y.1).isLE)
    (hyz : (compareKeys order y.1 z.1).isLE) : sortKeyed order [x, y, z] = some [x, y, z] := by
  have hyx := isLT_eq_false_iff.mpr hxy
  have hzy := isLT_eq_false_iff.mpr hyz
  have hlength : [x, y, z].length ≤ Sorting.insertionLimit := by
    show 3 ≤ 20
    decide
  unfold sortKeyed Sorting.sort
  rw [if_pos hlength]
  simp [Sorting.insertAll, Sorting.insert, hyx, hzy]

end Sorting

/-- The order of rows is the same from both sides. It is transitive, and sorting comes to rows in order,
if the values of each key are coherent, and for no other values. -/
theorem isPreorder_iff_coherent (columns : List (SortKey × (Scalar → Prop)))
    (hne : ∀ column ∈ columns, ∃ v, column.2 v) :
    let order := columns.map Prod.fst
    (∀ as, compareKeys order as as = .eq) ∧
      (∀ as bs, compareKeys order bs as = (compareKeys order as bs).swap) ∧
      (IsTransitiveOn (compareKeys order) (Drawn columns) ↔ ∀ column ∈ columns, Coherent column.2) ∧
      ((∀ keyed, (∀ x ∈ keyed, Drawn columns x.1) →
        ∃ sorted, sortKeyed order keyed = some sorted ∧ IsStableSort order keyed sorted) ↔
          ∀ column ∈ columns, Coherent column.2) := by
  have htransitive := isTransitiveOn_compareKeys_iff hne
  refine ⟨compareKeys_self _, compareKeys_swap _, htransitive, ?_⟩
  rw [← htransitive]
  constructor
  · intro hsorts as bs cs has hbs hcs hab hbc
    -- rows that are not above the next ones stay where they are, the first before the last
    obtain ⟨sorted, hsorted, hstable⟩ :=
      hsorts [(as, []), (bs, []), (cs, [])] (by simp [has, hbs, hcs])
    obtain rfl := Option.some.inj ((sortKeyed_of_isLE hab hbc).symm.trans hsorted)
    exact (List.pairwise_cons.mp hstable.ordered).1 (cs, []) (by simp)
  · exact fun hT keyed hkeyed => isStableSort_sortKeyed hT hkeyed

/-- Integers, a double that is the same as one of them, and missing values. -/
def exactNumbers : List Scalar := [.int 3, .float ⟨0x4000000000000000⟩, .int 2, .null]

/-- Rows of these are sorted in descending order, and missing values come last. -/
theorem isPreorder_iff_coherent_exactNumbers :
    let key : SortKey := ⟨.col "a" 0, false, false⟩
    (∀ column ∈ [(key, (· ∈ exactNumbers))], ∃ v, column.2 v) ∧
      ∀ keyed, (∀ x ∈ keyed, Drawn [(key, (· ∈ exactNumbers))] x.1) →
        ∃ sorted, sortKeyed [key] keyed = some sorted ∧ IsStableSort [key] keyed sorted := by
  intro key
  have hsome : ∀ column ∈ [(key, (· ∈ exactNumbers))], ∃ v, column.2 v :=
    List.forall_mem_singleton.mpr ⟨.null, by decide⟩
  have htransitive : ∀ a ∈ exactNumbers, ∀ b ∈ exactNumbers, ∀ c ∈ exactNumbers,
      (key.compareValues a b).isLE → (key.compareValues b c).isLE →
        (key.compareValues a c).isLE := by decide +kernel
  have hcoherent : Coherent (· ∈ exactNumbers) :=
    key.isTransitiveOn_compareValues_iff.mp fun a b c ha hb hc => htransitive a ha b hb c hc
  obtain ⟨-, -, -, hsorts⟩ := isPreorder_iff_coherent _ hsome
  exact ⟨hsome, hsorts.mpr (List.forall_mem_singleton.mpr hcoherent)⟩

/-- Two integers that are rounded to the same double are the same as this double, but not as each other.
Between the two, it keeps them from being sorted. -/
theorem not_transitive_roundedIntegers :
    let order : List SortKey := [⟨.col "a" 0, true, false⟩]
    let larger : Row := [.int 9007199254740993]
    let rounded : Row := [.float ⟨0x4340000000000000⟩]
    let smaller : Row := [.int 9007199254740992]
    (compareKeys order larger rounded).isLE ∧ (compareKeys order rounded smaller).isLE ∧
      ¬ (compareKeys order larger smaller).isLE ∧
      sortRows order [larger, rounded, smaller] = .ok [larger, rounded, smaller] := by
  decide +kernel

end SortKey

end QueryPlanner
