/-
# Likeness

What the memo takes for the same may differ in the sign of a zero, and in the bits of a
not-a-number. Operations on scalars make nothing of such differences, except for one: a number
divided by the two zeros is infinite with different signs.

* `canonical_eq_iff` : doubles are alike if they are the same, or both not-a-number, or both zeros;
* `canonical_floatArithmetic_eq_iff` : arithmetic keeps doubles alike unless it tells zeros apart;
* `EndAlike` : computations that end with related values, or with the same error;
* `endAlike_binary_iff`, `endAlike_unary`, `endAlike_call` : operations on alike scalars end alike,
  where divisions are those that do not tell their divisors apart.
-/
import Mathlib.Data.List.Forall2
import QueryPlanner.Execution.Operation

namespace QueryPlanner

open Float.Model
open UnpackedFloat (unpackExponent unpackMantissa)

namespace Double

/-! ## Floats taken apart -/

/-- The float of a double, taken apart. -/
def unpacked (x : Double) : UnpackedFloat := x.toFloat.toModel.unpack

/-- The double of a float that was taken apart. -/
def packed (u : UnpackedFloat) : Double := .ofFloat ⟨pack u⟩

/-- The zero below the other one. -/
def negativeZero : Double := ⟨0x8000000000000000⟩

theorem toNat_unpackMantissa (b : BitVec Format.binary64.numBits) :
    (unpackMantissa b).toNat = b.toNat % 0x10000000000000 := by
  simp [unpackMantissa, BitVec.extractLsb]

theorem toNat_unpackExponent (b : BitVec Format.binary64.numBits) :
    (unpackExponent b).toNat = b.toNat / 0x10000000000000 % 0x800 := by
  simp [unpackExponent, BitVec.extractLsb, Nat.shiftRight_eq_div_pow]

theorem unpacked_of_isNaN {x : Double} (h : x.isNaN = true) : x.unpacked = .notANumber := by
  have hmagnitude : infinity < x.bits.toNat % signBit := of_decide_eq_true h
  unfold infinity signBit at hmagnitude
  have hunpack : UnpackedFloat.unpack .binary64 x.bits.toBitVec = .notANumber := by
    unfold UnpackedFloat.unpack
    dsimp only
    rw [if_pos, if_neg]
    · rw [← BitVec.toNat_inj, toNat_unpackMantissa]
      show ¬ x.bits.toNat % _ = 0
      omega
    · rw [← BitVec.toNat_inj, toNat_unpackExponent]
      show x.bits.toNat / _ % _ = 2047
      omega
  -- the bits were packed again before the float was taken apart
  show UnpackedFloat.unpack .binary64
    (UnpackedFloat.pack .binary64 (UnpackedFloat.unpack .binary64 x.bits.toBitVec)) = _
  rw [hunpack]
  rfl

theorem eq_of_magnitude {x : Double} (h : x.magnitude = 0) : x = zero ∨ x = negativeZero := by
  have hlt := x.bits.toNat_lt
  unfold magnitude signBit at h
  have hbits : x.bits.toNat = 0 ∨ x.bits.toNat = 0x8000000000000000 := by omega
  exact hbits.imp (fun heq => congrArg mk (UInt64.toNat_inj.mp heq))
    fun heq => congrArg mk (UInt64.toNat_inj.mp heq)

theorem unpacked_of_magnitude {x : Double} (h : x.magnitude = 0) : ∃ s, x.unpacked = .zero s := by
  rcases eq_of_magnitude h with rfl | rfl
  · exact ⟨.positive, rfl⟩
  · exact ⟨.negative, rfl⟩

/-! ## Likeness -/

theorem canonical_of_isNaN {x : Double} (h : x.isNaN = true) : x.canonical = nan := if_pos h

theorem magnitude_ne_zero {x : Double} (h : x.isNaN = true) : x.magnitude ≠ 0 :=
  Nat.ne_zero_of_lt (of_decide_eq_true h)

theorem isNaN_canonical (x : Double) : x.canonical.isNaN = x.isNaN := by
  unfold canonical
  split
  · next h => rw [h]; decide
  · next h =>
    split
    · rw [Bool.eq_false_iff.mpr h]; decide
    · rfl

theorem magnitude_canonical (x : Double) : x.canonical.magnitude = 0 ↔ x.magnitude = 0 := by
  unfold canonical
  split
  · next h =>
    exact ⟨fun heq => absurd heq (by decide), fun heq => absurd heq (magnitude_ne_zero h)⟩
  · split
    · next hz => exact ⟨fun _ => hz, fun _ => by decide⟩
    · exact Iff.rfl

/-- Doubles are alike if they are the same, or both not-a-number, or both zeros. -/
theorem canonical_eq_iff {a b : Double} : a.canonical = b.canonical ↔
    a = b ∨ (a.isNaN = true ∧ b.isNaN = true) ∨ (a.magnitude = 0 ∧ b.magnitude = 0) := by
  constructor
  · intro h
    have hnan : a.isNaN = b.isNaN := by rw [← isNaN_canonical, h, isNaN_canonical]
    have hzero : a.magnitude = 0 ↔ b.magnitude = 0 := by
      rw [← magnitude_canonical, h, magnitude_canonical]
    by_cases hn : a.isNaN = true
    · exact .inr (.inl ⟨hn, hnan ▸ hn⟩)
    · by_cases hz : a.magnitude = 0
      · exact .inr (.inr ⟨hz, hzero.mp hz⟩)
      · unfold canonical at h
        rw [if_neg hn, if_neg hz, if_neg (hnan ▸ hn), if_neg (hzero.not.mp hz)] at h
        exact .inl h
  · rintro (rfl | ⟨ha, hb⟩ | ⟨ha, hb⟩)
    · rfl
    · rw [canonical_of_isNaN ha, canonical_of_isNaN hb]
    · have hcanonical : ∀ {x : Double}, x.magnitude = 0 → x.canonical = zero := by
        intro x hx
        rcases eq_of_magnitude hx with rfl | rfl
        · decide
        · decide
      rw [hcanonical ha, hcanonical hb]

/-- Floats that stand for the same number: the same float, or zeros. -/
inductive Resembles : UnpackedFloat → UnpackedFloat → Prop
  | refl (u : UnpackedFloat) : Resembles u u
  | zeros (s t : UnpackedFloat.Sign) : Resembles (.zero s) (.zero t)

theorem resembles_unpacked {a b : Double} (h : a.canonical = b.canonical) :
    Resembles a.unpacked b.unpacked := by
  rcases canonical_eq_iff.mp h with rfl | ⟨ha, hb⟩ | ⟨ha, hb⟩
  · exact .refl _
  · rw [unpacked_of_isNaN ha, unpacked_of_isNaN hb]
    exact .refl _
  · obtain ⟨s, hs⟩ := unpacked_of_magnitude ha
    obtain ⟨t, ht⟩ := unpacked_of_magnitude hb
    rw [hs, ht]
    exact .zeros s t

theorem Resembles.canonical_packed {u v : UnpackedFloat} (h : Resembles u v) :
    (packed u).canonical = (packed v).canonical := by
  have hzero : ∀ s, (packed (.zero s)).canonical = zero := by
    intro s
    cases s <;> decide
  cases h with
  | refl => rfl
  | zeros s t => rw [hzero s, hzero t]

/-! ## Arithmetic -/

/-- Arithmetic on floats that were taken apart. -/
def combine (op : BinaryOp) : UnpackedFloat → UnpackedFloat → UnpackedFloat :=
  match op with
  | .add => .add .binary64
  | .sub => .sub .binary64
  | .mul => .mul .binary64
  | _ => .div .binary64

theorem floatArithmetic_eq (op : BinaryOp) (a b : Double) :
    Scalar.floatArithmetic op a b = packed (combine op a.unpacked b.unpacked) := by
  cases op <;> rfl

section

variable {u v : UnpackedFloat}

/-- Which zero the left operand is makes no difference. -/
theorem Resembles.combine_left (op : BinaryOp) (h : Resembles u v) (w : UnpackedFloat) :
    Resembles (combine op u w) (combine op v w) := by
  cases h with
  | refl => exact .refl _
  | zeros s t =>
      rcases w with _ | _ | (_ | _) | _ <;> rcases s with _ | _ <;> rcases t with _ | _ <;>
        cases op <;> first | exact .refl _ | exact .zeros _ _

/-- Which zero the right operand is makes no difference but to a division. -/
theorem Resembles.combine_right {op : BinaryOp} (hop : Scalar.holds? op = none) (hdiv : op ≠ .div)
    (h : Resembles u v) (w : UnpackedFloat) : Resembles (combine op w u) (combine op w v) := by
  cases h with
  | refl => exact .refl _
  | zeros s t =>
      have hexact : op = .add ∨ op = .sub ∨ op = .mul := by
        cases op <;> simp_all [Scalar.holds?]
      rcases hexact with rfl | rfl | rfl <;> rcases w with _ | _ | (_ | _) | _ <;>
        rcases s with _ | _ <;> rcases t with _ | _ <;> first | exact .refl _ | exact .zeros _ _

end

variable {a a' b b' : Double}

theorem canonical_floatArithmetic_left (op : BinaryOp) (h : a.canonical = a'.canonical) :
    (Scalar.floatArithmetic op a b).canonical = (Scalar.floatArithmetic op a' b).canonical := by
  rw [floatArithmetic_eq, floatArithmetic_eq]
  exact ((resembles_unpacked h).combine_left op _).canonical_packed

/-- Whether an operation on a double and either of two others tells these apart: it is a division by
zeros of different signs, of a number other than zero itself. -/
def tellsApart (op : BinaryOp) (a b b' : Double) : Bool :=
  op == .div && b != b' && b.magnitude == 0 && b'.magnitude == 0 &&
    (!a.toFloat.isNaN && a.toFloat != 0)

/-- Numbers other than zero have different quotients by the two zeros. -/
theorem canonical_div_zero_eq_iff : (Scalar.floatArithmetic .div a zero).canonical =
    (Scalar.floatArithmetic .div a negativeZero).canonical ↔
      (!a.toFloat.isNaN && a.toFloat != 0) = false := by
  show (packed (.div .binary64 a.unpacked (.zero .positive))).canonical =
    (packed (.div .binary64 a.unpacked (.zero .negative))).canonical ↔
      (!a.unpacked.isNaN && !(a.unpacked.compare (.zero .positive) == some .eq)) = false
  have hne : (packed (.infinity .negative)).canonical ≠
      (packed (.infinity .positive)).canonical := by decide
  rcases a.unpacked with (_ | _) | _ | _ | ⟨_ | _, m, e, hm⟩
  · exact iff_of_false hne Bool.false_ne_true.symm
  · exact iff_of_false hne.symm Bool.false_ne_true.symm
  · exact iff_of_true rfl rfl
  · exact iff_of_true rfl rfl
  · exact iff_of_false hne Bool.false_ne_true.symm
  · exact iff_of_false hne.symm Bool.false_ne_true.symm

/-- Quotients of alike doubles are alike unless the divisors are told apart. -/
theorem canonical_div_eq_iff (hb : b.canonical = b'.canonical) :
    (Scalar.floatArithmetic .div a b).canonical = (Scalar.floatArithmetic .div a b').canonical ↔
      tellsApart .div a b b' = false := by
  unfold tellsApart
  rcases canonical_eq_iff.mp hb with rfl | ⟨hn, hn'⟩ | ⟨hz, hz'⟩
  · simp
  · have hquotients : Scalar.floatArithmetic .div a b = Scalar.floatArithmetic .div a b' := by
      rw [floatArithmetic_eq, floatArithmetic_eq, unpacked_of_isNaN hn, unpacked_of_isNaN hn']
    simp [hquotients, magnitude_ne_zero hn]
  · rcases eq_of_magnitude hz with rfl | rfl <;> rcases eq_of_magnitude hz' with rfl | rfl
    · simp
    · exact canonical_div_zero_eq_iff
    · exact eq_comm.trans canonical_div_zero_eq_iff
    · simp

/-- Arithmetic on alike doubles gives alike ones unless it tells the right operands apart. -/
theorem canonical_floatArithmetic_eq_iff {op : BinaryOp} (hop : Scalar.holds? op = none)
    (ha : a.canonical = a'.canonical) (hb : b.canonical = b'.canonical) :
    (Scalar.floatArithmetic op a b).canonical = (Scalar.floatArithmetic op a' b').canonical ↔
      tellsApart op a b b' = false := by
  rw [← canonical_floatArithmetic_left op ha]
  by_cases hdiv : op = .div
  · subst hdiv
    exact canonical_div_eq_iff hb
  · have hfalse : tellsApart op a b b' = false := by simp [tellsApart, hdiv]
    refine iff_of_true ?_ hfalse
    rw [floatArithmetic_eq, floatArithmetic_eq]
    exact ((resembles_unpacked hb).combine_right hop hdiv _).canonical_packed

/-! ## Order and signs -/

theorem compare_congr (ha : a.canonical = a'.canonical) (hb : b.canonical = b'.canonical) :
    a.compare b = a'.compare b' := by
  unfold compare
  rw [ha, hb]

theorem magnitude_neg (x : Double) : x.neg.magnitude = x.magnitude := by
  unfold magnitude neg signBit
  rw [UInt64.toNat_xor, Nat.xor_mod_two_pow (n := 63)]
  simp

theorem magnitude_abs (x : Double) : x.abs.magnitude = x.magnitude := by
  unfold magnitude abs signBit
  rw [UInt64.toNat_and]
  show (x.bits.toNat &&& (2 ^ 63 - 1)) % 2 ^ 63 = x.bits.toNat % 2 ^ 63
  rw [Nat.and_two_pow_sub_one_eq_mod, Nat.mod_mod]

/-- What keeps magnitudes keeps likeness. -/
theorem canonical_map {g : Double → Double} (hg : ∀ x, (g x).magnitude = x.magnitude)
    (h : a.canonical = b.canonical) : (g a).canonical = (g b).canonical := by
  have hnan : ∀ x, (g x).isNaN = x.isNaN := fun x => by rw [isNaN, isNaN, hg]
  rw [canonical_eq_iff, hnan, hnan, hg, hg]
  exact (canonical_eq_iff.mp h).imp_left (congrArg g)

end Double

/-! ## Outcomes -/

/-- The error with the values that it is about in their canonical form. -/
def ExecutionError.canonical : ExecutionError → ExecutionError
  | .typeMismatch (.operands operation values) =>
      .typeMismatch (.operands operation (values.map Scalar.canonical))
  | other => other

/-- Two computations end alike: both with values that are related, or both with an error, which is
the same up to the values that it is about. -/
inductive EndAlike {α : Type} (R : α → α → Prop) :
    Except ExecutionError α → Except ExecutionError α → Prop
  | ok {a b : α} (h : R a b) : EndAlike R (.ok a) (.ok b)
  | error {e e' : ExecutionError} (h : e.canonical = e'.canonical) :
      EndAlike R (.error e) (.error e')

namespace EndAlike

variable {α β : Type} {R : α → α → Prop} {S : β → β → Prop} {x y : Except ExecutionError α}

theorem refl (hR : ∀ a, R a a) (x : Except ExecutionError α) : EndAlike R x x := by
  cases x with
  | error e => exact .error rfl
  | ok a => exact .ok (hR a)

theorem ok_iff {a b : α} : EndAlike R (.ok a) (.ok b) ↔ R a b := by
  constructor
  · rintro ⟨h⟩
    exact h
  · exact .ok

/-- What goes on alike from related values ends alike. -/
theorem bind {f g : α → Except ExecutionError β} (h : EndAlike R x y)
    (hf : ∀ a b, x = .ok a → y = .ok b → R a b → EndAlike S (f a) (g b)) :
    EndAlike S (x >>= f) (y >>= g) := by
  cases h with
  | ok h => exact hf _ _ rfl rfl h
  | error h => exact .error h

theorem map {f g : α → β} (h : EndAlike R x y) (hf : ∀ a b, x = .ok a → y = .ok b → R a b →
    S (f a) (g b)) : EndAlike S (x.map f) (y.map g) := by
  cases h with
  | ok h => exact .ok (hf _ _ rfl rfl h)
  | error h => exact .error h

/-- Computations one after another, from related values. -/
theorem mapM {as bs : List α} {f g : α → Except ExecutionError β} (h : List.Forall₂ R as bs)
    (hf : ∀ a b, R a b → EndAlike S (f a) (g b)) :
    EndAlike (List.Forall₂ S) (as.mapM f) (bs.mapM g) := by
  induction h with
  | nil => exact .ok .nil
  | cons hab _ ih =>
      rw [List.mapM_cons, List.mapM_cons]
      exact (hf _ _ hab).bind fun _ _ _ _ hhead => ih.bind fun _ _ _ _ htail =>
        .ok (.cons hhead htail)

end EndAlike

/-! ## Scalars -/

namespace Scalar

/-- Scalars that are alike. -/
def Like (v w : Scalar) : Prop := v.canonical = w.canonical

instance (v w : Scalar) : Decidable (Like v w) :=
  inferInstanceAs (Decidable (v.canonical = w.canonical))

variable {v w l l' r r' : Scalar}

theorem Like.refl (v : Scalar) : Like v v := rfl

/-- Scalars that are alike are the same, or alike floats. -/
theorem Like.eq_or_floats (h : Like v w) :
    v = w ∨ ∃ x y, v = float x ∧ w = float y ∧ x.canonical = y.canonical := by
  unfold Like at h
  cases v with
  | float x =>
      cases w with
      | float y => exact .inr ⟨x, y, rfl, rfl, float.inj h⟩
      | _ => cases h
  | _ =>
      cases w with
      | float y => cases h
      | _ => exact .inl h

theorem like_float_iff {x y : Double} : Like (float x) (float y) ↔ x.canonical = y.canonical :=
  ⟨float.inj, congrArg float⟩

theorem Like.isNull_eq (h : Like v w) : v.isNull = w.isNull := by
  rw [← isNull_canonical, h, isNull_canonical]

theorem Like.isTrue_eq (h : Like v w) : v.isTrue = w.isTrue := by
  rcases h.eq_or_floats with rfl | ⟨x, y, rfl, rfl, -⟩ <;> rfl

theorem forall₂_like_iff {vs ws : List Scalar} :
    List.Forall₂ Like vs ws ↔ vs.map canonical = ws.map canonical := by
  rw [← List.forall₂_eq_eq_eq, List.forall₂_map_left_iff, List.forall₂_map_right_iff]
  rfl

/-- Complaints about operands that are alike are alike. -/
theorem endAlike_mismatch {α : Type} {R : α → α → Prop} (operation : String)
    {vs ws : List Scalar} (h : List.Forall₂ Like vs ws) :
    EndAlike R (mismatch operation vs) (mismatch operation ws) := by
  have hcomplaint := congrArg (TypeMismatch.operands operation) (forall₂_like_iff.mp h)
  exact .error (congrArg ExecutionError.typeMismatch hcomplaint)

/-! ### Comparisons -/

theorem compareByValue_congr {a a' b b' : Double} (ha : a.canonical = a'.canonical)
    (hb : b.canonical = b'.canonical) : compareByValue a b = compareByValue a' b' := by
  unfold compareByValue
  rw [← Double.isNaN_canonical a, ← Double.isNaN_canonical b, ha, hb, Double.isNaN_canonical,
    Double.isNaN_canonical, Double.compare_congr ha hb]

/-- Scalars that are alike compare in the same way. -/
theorem compare_congr (hl : Like l l') (hr : Like r r') : compare l r = compare l' r' := by
  rcases hl.eq_or_floats with rfl | ⟨x, x', rfl, rfl, hx⟩ <;>
    rcases hr.eq_or_floats with rfl | ⟨y, y', rfl, rfl, hy⟩
  · rfl
  · cases l with
    | int a => exact compareByValue_congr rfl hy
    | float a => exact congrArg some (Double.compare_congr rfl hy)
    | _ => rfl
  · cases r with
    | int b => exact compareByValue_congr hx rfl
    | float b => exact congrArg some (Double.compare_congr hx rfl)
    | _ => rfl
  · exact congrArg some (Double.compare_congr hx hy)

/-! ### Arithmetic -/

/-- Whether an operation tells two divisors of a scalar apart. -/
def tellsApart (op : BinaryOp) (dividend divisor divisor' : Scalar) : Bool :=
  match dividend.toDouble?, divisor, divisor' with
  | some a, float b, float b' => Double.tellsApart op a b b'
  | _, _, _ => false

theorem tellsApart_self (op : BinaryOp) (l r : Scalar) : tellsApart op l r r = false := by
  unfold tellsApart Double.tellsApart
  split <;> simp_all

theorem endAlike_arithmetic_iff {op : BinaryOp} (hop : holds? op = none) (hl : Like l l')
    (hr : Like r r') :
    EndAlike Like (arithmetic op l r) (arithmetic op l' r') ↔ tellsApart op l r r' = false := by
  have hfloats : ∀ {a a' b b' : Double}, a.canonical = a'.canonical → b.canonical = b'.canonical →
      (EndAlike Like (.ok (float (floatArithmetic op a b)))
        (.ok (float (floatArithmetic op a' b'))) ↔ Double.tellsApart op a b b' = false) := by
    intro a a' b b' ha hb
    rw [EndAlike.ok_iff, like_float_iff, Double.canonical_floatArithmetic_eq_iff hop ha hb]
  rcases hl.eq_or_floats with rfl | ⟨x, x', rfl, rfl, hx⟩ <;>
    rcases hr.eq_or_floats with rfl | ⟨y, y', rfl, rfl, hy⟩
  · exact iff_of_true (.refl Like.refl _) (tellsApart_self op l r)
  · cases l with
    | int a => exact hfloats rfl hy
    | float a => exact hfloats rfl hy
    | _ => exact iff_of_true (endAlike_mismatch _ (.cons rfl (.cons hr .nil))) rfl
  · cases r with
    | int b => exact iff_of_true ((hfloats hx rfl).mpr (by simp [Double.tellsApart])) rfl
    | float b => exact hfloats hx rfl
    | _ => exact iff_of_true (endAlike_mismatch _ (.cons hl (.cons rfl .nil))) rfl
  · exact hfloats hx hy

/-- Operations on alike scalars end alike exactly if they do not tell the right operands apart. -/
theorem endAlike_binary_iff {op : BinaryOp} (hl : Like l l') (hr : Like r r') :
    EndAlike Like (binary op l r) (binary op l' r') ↔ tellsApart op l r r' = false := by
  unfold binary
  rw [hl.isNull_eq, hr.isNull_eq]
  split
  · next hnull =>
    refine iff_of_true (.ok rfl) ?_
    rw [← hl.isNull_eq, ← hr.isNull_eq] at hnull
    cases l <;> cases r <;> first | rfl | cases hnull
  · rcases hop : holds? op with _ | holds
    · exact endAlike_arithmetic_iff hop hl hr
    · have hdiv : op ≠ .div := fun heq => by
        subst heq
        cases hop
      refine iff_of_true ?_ ?_
      · dsimp only
        rw [compare_congr hl hr]
        rcases compare l' r' with _ | order
        · exact endAlike_mismatch _ (.cons hl (.cons hr .nil))
        · exact .ok rfl
      · unfold tellsApart Double.tellsApart
        split <;> simp [hdiv]

/-! ### Other operations -/

theorem endAlike_unary (op : UnaryOp) (h : Like v w) :
    EndAlike Like (unary op v) (unary op w) := by
  rcases h.eq_or_floats with rfl | ⟨x, y, rfl, rfl, hxy⟩
  · exact .refl Like.refl _
  · cases op with
    | not => exact endAlike_mismatch _ (.cons h .nil)
    | neg => exact .ok (like_float_iff.mpr (Double.canonical_map Double.magnitude_neg hxy))
    | isNull => exact .ok rfl
    | isNotNull => exact .ok rfl

theorem like_coalesce {vs ws : List Scalar} (h : List.Forall₂ Like vs ws) :
    Like ((vs.find? fun v => !v.isNull).getD null) ((ws.find? fun v => !v.isNull).getD null) := by
  induction h with
  | nil => rfl
  | @cons v w _ _ hv _ ih =>
      rw [List.find?_cons, List.find?_cons, hv.isNull_eq]
      cases w.isNull with
      | true => exact ih
      | false => exact hv

/-- Functions other than `coalesce`. -/
theorem endAlike_valueOn (f : Function) (name : String) (h : Like v w) :
    EndAlike Like ((f.valueOn? v).getD (mismatch name [v]))
      ((f.valueOn? w).getD (mismatch name [w])) := by
  rcases h.eq_or_floats with rfl | ⟨x, y, rfl, rfl, hxy⟩
  · exact .refl Like.refl _
  · cases f with
    | abs => exact .ok (like_float_iff.mpr (Double.canonical_map Double.magnitude_abs hxy))
    | _ => exact endAlike_mismatch _ (.cons h .nil)

/-- A call with several arguments: only `coalesce` takes them. -/
theorem call_several (name : String) (v v' : Scalar) (vs : List Scalar) :
    call name (v :: v' :: vs) = match Function.ofName? name with
      | some .coalesce => .ok (((v :: v' :: vs).find? fun v => !v.isNull).getD null)
      | some _ => mismatch name (v :: v' :: vs)
      | none => .error (.unknownFunction name) := by
  unfold call
  rcases Function.ofName? name with _ | f
  · cases v <;> rfl
  · cases f <;> cases v <;> rfl

theorem endAlike_call (name : String) {vs ws : List Scalar} (h : List.Forall₂ Like vs ws) :
    EndAlike Like (call name vs) (call name ws) := by
  cases h with
  | nil => exact .refl Like.refl _
  | @cons v w _ _ hv hvs =>
      cases hvs with
      | nil =>
          rcases hv.eq_or_floats with rfl | ⟨x, y, rfl, rfl, -⟩
          · exact .refl Like.refl _
          · unfold call
            rcases Function.ofName? name with _ | f
            · exact .error rfl
            · cases f with
              | coalesce => exact .ok hv
              | _ => exact endAlike_valueOn _ name hv
      | @cons v' w' vs ws hv' hvs =>
          have hall : List.Forall₂ Like (v :: v' :: vs) (w :: w' :: ws) := .cons hv (.cons hv' hvs)
          rw [call_several, call_several]
          rcases Function.ofName? name with _ | f
          · exact .error rfl
          · cases f with
            | coalesce => exact .ok (like_coalesce hall)
            | _ => exact endAlike_mismatch name hall

end Scalar
end QueryPlanner
