/-
# Integers as doubles

A double has 53 significant bits. An integer that has more of them is rounded to the nearest double,
and to the even one of two that are as near, so that neighbours may come to the same double. No two of
them change places.

* `roundedQuotient` : quotients by powers of two, rounded to the nearest number;
* `IsShifted.roundedMantissa` : shifting bits out one by one rounds the quotient;
* `Double.nearestBits` : the bits of the double nearest to a natural number, in closed form;
* `Double.nearestKey_mono`, `Scalar.key_nearest` : the places of integers among the doubles.
-/
import Mathlib
import QueryPlanner.Proofs.Likeness

namespace QueryPlanner

open Float.Model
open UnpackedFloat (ExtendedMantissa packComponents roundWithAccuracy shiftToTargetExponent)

/-! ## Rounded quotients -/

/-- The quotient of a number by a power of two, rounded to the nearest number, and to the even one of
two that are as near. -/
def roundedQuotient (m t : Nat) : Nat :=
  if 2 * (m % 2 ^ t) < 2 ^ t then m / 2 ^ t
  else if 2 * (m % 2 ^ t) = 2 ^ t then m / 2 ^ t + m / 2 ^ t % 2
  else m / 2 ^ t + 1

theorem le_roundedQuotient (m t : Nat) : m / 2 ^ t ≤ roundedQuotient m t := by
  unfold roundedQuotient
  split
  · exact Nat.le_refl _
  · split <;> omega

theorem roundedQuotient_le (m t : Nat) : roundedQuotient m t ≤ m / 2 ^ t + 1 := by
  unfold roundedQuotient
  split
  · omega
  · split <;> omega

/-- Rounding keeps the order. -/
theorem roundedQuotient_mono {m n : Nat} (h : m ≤ n) (t : Nat) :
    roundedQuotient m t ≤ roundedQuotient n t := by
  rcases Nat.eq_or_lt_of_le (Nat.div_le_div_right (c := 2 ^ t) h) with heq | hlt
  · have hm := Nat.div_add_mod m (2 ^ t)
    have hn := Nat.div_add_mod n (2 ^ t)
    have hrest : m % 2 ^ t ≤ n % 2 ^ t := by
      rw [heq] at hm
      omega
    unfold roundedQuotient
    rw [heq]
    split <;> split <;> (try split) <;> (try split) <;> omega
  · have hm := roundedQuotient_le m t
    have hn := le_roundedQuotient n t
    omega

/-- A common power of two has no part in the rounded quotient. -/
theorem roundedQuotient_mul (m t u : Nat) :
    roundedQuotient (m * 2 ^ u) (t + u) = roundedQuotient m t := by
  have hpos : 0 < 2 ^ u := Nat.two_pow_pos u
  have hhalf : ∀ r, 2 * (r * 2 ^ u) = 2 * r * 2 ^ u := fun r => (Nat.mul_assoc 2 r _).symm
  unfold roundedQuotient
  rw [Nat.pow_add, Nat.mul_div_mul_right _ _ hpos, Nat.mul_mod_mul_right, hhalf]
  simp only [Nat.mul_lt_mul_right hpos, Nat.mul_left_inj (Nat.ne_of_gt hpos)]

theorem roundedQuotient_zero (m : Nat) : roundedQuotient m 0 = m := by
  unfold roundedQuotient
  rw [Nat.pow_zero, Nat.mod_one, Nat.div_one]
  rfl

/-! ## Shifting out bits -/

/-- What is left of `m` when `t` bits were shifted out: the quotient, whether the last bit was set, and
whether any bit before that was. -/
structure IsShifted (m t : Nat) (em : ExtendedMantissa) : Prop where
  mantissa : em.mantissa = m / 2 ^ t
  roundBit : em.roundBit = decide (2 ^ t ≤ 2 * (m % 2 ^ t))
  stickyBit : em.stickyBit = decide (m % 2 ^ t ≠ 0 ∧ 2 * (m % 2 ^ t) ≠ 2 ^ t)

theorem isShifted_zero (m : Nat) : IsShifted m 0 ⟨m, false, false⟩ where
  mantissa := (Nat.div_one m).symm
  roundBit := by simp [Nat.mod_one]
  stickyBit := by simp [Nat.mod_one]

/-- One more bit is shifted out. -/
theorem IsShifted.shiftRightOne {m t : Nat} {em : ExtendedMantissa} (h : IsShifted m t em) :
    IsShifted m (t + 1) em.shiftRightOne := by
  have hpos : 0 < 2 ^ t := Nat.two_pow_pos t
  have hlt : m % 2 ^ t < 2 ^ t := Nat.mod_lt _ hpos
  have hpow : 2 ^ (t + 1) = 2 ^ t * 2 := Nat.pow_succ 2 t
  have hrest : m % 2 ^ (t + 1) = m % 2 ^ t + 2 ^ t * (m / 2 ^ t % 2) := by
    rw [hpow, Nat.mod_mul]
  refine ⟨?_, ?_, ?_⟩
  · show em.mantissa / 2 = _
    rw [h.mantissa, hpow, Nat.div_div_eq_div_mul]
  · show (em.mantissa % 2 != 0) = _
    rw [h.mantissa, hrest, hpow]
    rcases Nat.mod_two_eq_zero_or_one (m / 2 ^ t) with hbit | hbit <;> rw [hbit] <;> simp <;> omega
  · show (em.roundBit || em.stickyBit) = _
    rw [h.roundBit, h.stickyBit, hrest, hpow, ← Bool.decide_or, decide_eq_decide]
    rcases Nat.mod_two_eq_zero_or_one (m / 2 ^ t) with hbit | hbit <;> rw [hbit] <;> omega

theorem isShifted_shiftRight (m t : Nat) :
    IsShifted m t ((⟨m, false, false⟩ : ExtendedMantissa) >>> t) := by
  induction t with
  | zero => exact isShifted_zero m
  | succ t ih => exact ih.shiftRightOne

theorem mantissa_shiftRight_zero (m : Nat) :
    ((⟨m, false, false⟩ : ExtendedMantissa) >>> 0).mantissa = m := rfl

/-- The bits that were shifted out decide how the quotient is rounded. -/
theorem IsShifted.roundedMantissa {m t : Nat} {em : ExtendedMantissa} (h : IsShifted m t em) :
    em.roundedMantissa = roundedQuotient m t := by
  obtain ⟨q, last, before⟩ := em
  obtain ⟨hq, hlast, hbefore⟩ := h
  dsimp only at hq hlast hbefore
  have hpos : 0 < 2 ^ t := Nat.two_pow_pos t
  unfold roundedQuotient
  cases last with
  | false =>
      have hlt : 2 * (m % 2 ^ t) < 2 ^ t := Nat.lt_of_not_le (of_decide_eq_false hlast.symm)
      rw [if_pos hlt, ← hq]
      cases before <;> rfl
  | true =>
      have hle : 2 ^ t ≤ 2 * (m % 2 ^ t) := of_decide_eq_true hlast.symm
      rw [if_neg (Nat.not_lt_of_le hle), ← hq]
      cases before with
      | false =>
          have hhalf : 2 * (m % 2 ^ t) = 2 ^ t := by
            have hnot := of_decide_eq_false hbefore.symm
            omega
          rw [if_pos hhalf]
          rfl
      | true =>
          rw [if_neg (of_decide_eq_true hbefore.symm).2]
          rfl

/-! ## Bits -/

namespace Double

/-- The number that packed components are the bits of. -/
theorem toNat_packComponents (s : UnpackedFloat.Sign) (e : BitVec 11) (m : BitVec 52) :
    (packComponents .binary64 s e m).toNat = s.toBitVec.toNat * 2 ^ 63 + e.toNat * 2 ^ 52 + m.toNat := by
  have he := e.isLt
  have hm := m.isLt
  show (s.toBitVec ++ e ++ m).toNat = _
  rw [BitVec.toNat_append, ← Nat.shiftLeft_add_eq_or_of_lt hm, BitVec.toNat_append,
    ← Nat.shiftLeft_add_eq_or_of_lt he, Nat.shiftLeft_eq, Nat.shiftLeft_eq]
  omega

/-- The logarithm of a number between two powers of two. -/
theorem log2_eq {m k : Nat} (hle : 2 ^ k ≤ m) (hlt : m < 2 ^ (k + 1)) : m.log2 = k := by
  have hm : m ≠ 0 := Nat.ne_of_gt (Nat.lt_of_lt_of_le (Nat.two_pow_pos k) hle)
  exact (Nat.log2_eq_iff hm).mpr ⟨hle, hlt⟩

variable {m : Nat} {e : Int} {s : UnpackedFloat.Sign}

/-- A normal number packed: its mantissa without the bit that is always set, under the exponent. -/
theorem pack_finite (hle : 2 ^ 52 ≤ m) (hlt : m < 2 ^ 53) (hlow : -1074 ≤ e) (hhigh : e ≤ 971)
    (hm : 0 < m) : UnpackedFloat.pack .binary64 (.finite s m e hm) =
      packComponents .binary64 s (BitVec.ofNat 11 (e + 1075).toNat) (BitVec.ofNat 52 m) := by
  have hbiased : (e + Format.binary64.exponentBias +
      Format.binary64.mantissaBitsWithoutImplicit).toNat = (e + 1075).toNat := by
    show (e + ((1023 : Nat) : Int) + ((52 : Nat) : Int)).toNat = _
    omega
  have hbits : (52 : Nat) + 1 = Format.binary64.mantissaBits := rfl
  unfold UnpackedFloat.pack
  dsimp only
  rw [hbiased, log2_eq hle hlt, if_neg, if_pos hbits]
  omega

theorem finite_congr {n : Nat} {f : Int} (hm : m = n) (he : e = f) (hpos : 0 < m) (hpos' : 0 < n) :
    UnpackedFloat.finite s m e hpos = .finite s n f hpos' := by
  subst hm he
  rfl

/-- A normal number is taken apart as it was packed. -/
theorem unpack_pack_finite (hle : 2 ^ 52 ≤ m) (hlt : m < 2 ^ 53) (hlow : -1074 ≤ e) (hhigh : e ≤ 971)
    (hm : 0 < m) : UnpackedFloat.unpack .binary64 (UnpackedFloat.pack .binary64 (.finite s m e hm)) =
      .finite s m e hm := by
  have hexponent : (BitVec.ofNat 11 (e + 1075).toNat).toNat = (e + 1075).toNat := by
    rw [BitVec.toNat_ofNat, Nat.mod_eq_of_lt (by omega)]
  have hmantissa : (1#1 ++ BitVec.ofNat 52 m).toNat = m := by
    rw [BitVec.toNat_append, ← Nat.shiftLeft_add_eq_or_of_lt (BitVec.ofNat 52 m).isLt,
      Nat.shiftLeft_eq]
    simp only [BitVec.toNat_ofNat]
    omega
  have hfinite : BitVec.ofNat 11 (e + 1075).toNat ≠ -1#11 := by
    have hones : (-1#11).toNat = 2047 := by decide
    rw [Ne, ← BitVec.toNat_inj, hexponent, hones]
    omega
  have hnormal : BitVec.ofNat 11 (e + 1075).toNat ≠ 0#11 := by
    have hzero : (0#11).toNat = 0 := by decide
    rw [Ne, ← BitVec.toNat_inj, hexponent, hzero]
    omega
  rw [pack_finite hle hlt hlow hhigh hm]
  rw [UnpackedFloat.unpack]
  simp only [UnpackedFloat.unpackExponent_packComponents, UnpackedFloat.unpackMantissa_packComponents,
    UnpackedFloat.unpackSign_packComponents, UnpackedFloat.Sign.ofBitVec_toBitVec]
  rw [if_neg hfinite, if_neg hnormal]
  refine finite_congr hmantissa ?_ _ _
  rw [hexponent]
  show ((e + 1075).toNat : Int) - (((1023 : Nat) : Int) + ((52 : Nat) : Int)) = e
  omega

/-- A normal number, and the bits of it without the sign. -/
def IsNormal (u : UnpackedFloat) (s : UnpackedFloat.Sign) (n : Nat) : Prop :=
  ∃ m e, ∃ hm : 0 < m, u = .finite s m e hm ∧ 2 ^ 52 ≤ m ∧ m < 2 ^ 53 ∧ -1074 ≤ e ∧ e ≤ 971 ∧
    n = (e + 1074).toNat * 2 ^ 52 + m

namespace IsNormal

variable {u : UnpackedFloat} {n : Nat}

theorem unpack_pack (h : IsNormal u s n) : (pack u).unpack = u := by
  obtain ⟨m, e, hm, rfl, hle, hlt, hlow, hhigh, -⟩ := h
  exact unpack_pack_finite hle hlt hlow hhigh hm

theorem toNat_bits (h : IsNormal u s n) :
    (pack u).toBits.toNat = s.toBitVec.toNat * 2 ^ 63 + n := by
  obtain ⟨m, e, hm, rfl, hle, hlt, hlow, hhigh, rfl⟩ := h
  show (UnpackedFloat.pack .binary64 (.finite s m e hm)).toNat = _
  rw [pack_finite hle hlt hlow hhigh hm, toNat_packComponents, BitVec.toNat_ofNat,
    BitVec.toNat_ofNat]
  omega

theorem neg (h : IsNormal u s n) : IsNormal u.neg (-s) n := by
  obtain ⟨m, e, hm, rfl, hbounds⟩ := h
  exact ⟨m, e, hm, rfl, hbounds⟩

/-- A normal number is below infinity. -/
theorem lt_infinity (h : IsNormal u s n) : 0 < n ∧ n < infinity := by
  obtain ⟨m, e, hm, rfl, hle, hlt, hlow, hhigh, rfl⟩ := h
  unfold infinity
  omega

end IsNormal

/-! ## Rounding to 53 bits -/

variable {t : Nat}

theorem shiftToTargetExponent_eq (hm : m.log2 = 52 + t) (hlow : -1074 ≤ e + t) :
    shiftToTargetExponent .binary64 m e .exact =
      ((⟨m, false, false⟩ : ExtendedMantissa) >>> t, e + t) := by
  have htarget : Format.binary64.targetExponent (totalExponent m e) = e + t := by
    unfold Format.targetExponent totalExponent
    rw [hm]
    show max (((52 + t : Nat) : Int) + 1 + e - ((53 : Nat) : Int)) (-1074) = e + t
    omega
  have hshift : (e + (t : Int) - e).toNat = t := by omega
  unfold shiftToTargetExponent
  rw [htarget]
  unfold UnpackedFloat.shiftToExponent
  dsimp only
  rw [hshift]
  rfl

/-- The quotient of a number by what has no place in 53 bits. -/
theorem div_two_pow_bounds (hm : m.log2 = 52 + t) : 2 ^ 52 ≤ m / 2 ^ t ∧ m / 2 ^ t < 2 ^ 53 := by
  have hpos : 0 < 2 ^ t := Nat.two_pow_pos t
  have hne : m ≠ 0 := by
    rintro rfl
    rw [Nat.log2_zero] at hm
    omega
  obtain ⟨hle, hlt⟩ := (Nat.log2_eq_iff hne).mp hm
  rw [Nat.le_div_iff_mul_le hpos, Nat.div_lt_iff_lt_mul hpos, ← Nat.pow_add, ← Nat.pow_add]
  rw [show 52 + t + 1 = 53 + t by omega] at hlt
  exact ⟨hle, hlt⟩

/-- The quotient is rounded to 53 bits. If it comes to a power of two more, the exponent is raised. -/
theorem isNormal_roundWithAccuracy (hm : m.log2 = 52 + t) (hlow : -1074 ≤ e + t) (hhigh : e + t ≤ 970) :
    IsNormal (roundWithAccuracy .binary64 s m e .exact) s
      ((e + t + 1074).toNat * 2 ^ 52 + roundedQuotient m t) := by
  obtain ⟨hquotient, hquotient'⟩ := div_two_pow_bounds hm
  have hle := Nat.le_trans hquotient (le_roundedQuotient m t)
  have hlt := roundedQuotient_le m t
  unfold roundWithAccuracy
  rw [shiftToTargetExponent_eq hm hlow]
  dsimp only
  rw [(isShifted_shiftRight m t).roundedMantissa]
  generalize roundedQuotient m t = r at hle hlt
  rcases Nat.lt_or_ge r (2 ^ 53) with hr | hr
  · rw [shiftToTargetExponent_eq (t := 0) (log2_eq hle hr) (by omega)]
    have hmantissa := mantissa_shiftRight_zero r
    dsimp only
    rw [dif_neg (by omega)]
    refine ⟨r, e + t, by omega, finite_congr hmantissa (by omega) _ _, hle, hr, hlow, by omega, rfl⟩
  · obtain rfl : r = 2 ^ 53 := by omega
    rw [shiftToTargetExponent_eq (t := 1) Nat.log2_two_pow (by omega)]
    have hmantissa := (isShifted_shiftRight (2 ^ 53) 1).mantissa
    dsimp only
    rw [dif_neg fun hzero => absurd (hmantissa.symm.trans hzero) (by decide)]
    refine ⟨2 ^ 52, e + t + 1, by omega, finite_congr hmantissa (by omega) _ _, by omega, by omega,
      by omega, by omega, by omega⟩

/-! ## Natural numbers -/

/-- The bits of the double nearest to a natural number. -/
def nearestBits (n : Nat) : Nat :=
  if n = 0 then 0 else (n.log2 + 1022) * 2 ^ 52 + roundedQuotient (n * 2 ^ 52) n.log2

/-- What has 53 bits is not rounded. -/
theorem roundWithAccuracy_of_lt (hle : 2 ^ 52 ≤ m) (hlt : m < 2 ^ 53) (hlow : -1074 ≤ e) (hm : 0 < m) :
    roundWithAccuracy .binary64 s m e .exact = .finite s m e hm := by
  have hshift := shiftToTargetExponent_eq (t := 0) (log2_eq hle hlt) (e := e) (by omega)
  have hmantissa := mantissa_shiftRight_zero m
  have hexponent : e + ((0 : Nat) : Int) = e := by omega
  unfold roundWithAccuracy
  rw [hshift]
  dsimp only
  rw [(isShifted_shiftRight m 0).roundedMantissa, roundedQuotient_zero, hexponent, hshift]
  dsimp only
  rw [dif_neg fun hzero => Nat.ne_of_gt hm (hmantissa.symm.trans hzero)]
  exact finite_congr hmantissa hexponent _ _

variable {n : Nat}

theorem log2_mul_two_pow (hn : n ≠ 0) (k : Nat) : (n * 2 ^ k).log2 = n.log2 + k := by
  obtain ⟨hle, hlt⟩ := (Nat.log2_eq_iff hn).mp rfl
  refine log2_eq ?_ ?_
  · rw [Nat.pow_add]
    exact Nat.mul_le_mul_right _ hle
  · rw [Nat.add_right_comm, Nat.pow_add]
    exact Nat.mul_lt_mul_of_pos_right hlt (Nat.two_pow_pos k)

/-- A number of at most 53 bits has all of them when it is multiplied by a power of two. -/
theorem scaled_bounds (hpos : 0 < n) (hlog : n.log2 ≤ 52) :
    2 ^ 52 ≤ n * 2 ^ (52 - n.log2) ∧ n * 2 ^ (52 - n.log2) < 2 ^ 53 := by
  have hne : n * 2 ^ (52 - n.log2) ≠ 0 := Nat.ne_of_gt (Nat.mul_pos hpos (Nat.two_pow_pos _))
  have hlog' : (n * 2 ^ (52 - n.log2)).log2 = 52 := by
    rw [log2_mul_two_pow (Nat.ne_of_gt hpos)]
    omega
  exact (Nat.log2_eq_iff hne).mp hlog'

/-- Such a number is the mantissa of a double, without any rounding. -/
theorem ofNat_of_log2_le (hpos : 0 < n) (hlog : n.log2 ≤ 52) :
    ∃ h, UnpackedFloat.ofNat .binary64 n =
        .finite .positive (n * 2 ^ (52 - n.log2)) ((n.log2 : Int) - 52) h := by
  have hshift : 0 < n * 2 ^ (52 - n.log2) := Nat.mul_pos hpos (Nat.two_pow_pos _)
  refine ⟨hshift, ?_⟩
  obtain ⟨hle, hlt⟩ := scaled_bounds hpos hlog
  have hsign : Ord.compare (n : Int) 0 = .gt := Int.compare_eq_gt.mpr (Int.natCast_pos.mpr hpos)
  have htarget : Format.binary64.targetExponent (totalExponent n 0) = (n.log2 : Int) - 52 := by
    unfold Format.targetExponent totalExponent
    show max ((n.log2 : Int) + 1 + 0 - ((53 : Nat) : Int)) (-1074) = _
    omega
  unfold UnpackedFloat.ofNat UnpackedFloat.ofInt UnpackedFloat.normalize
  rw [hsign]
  dsimp only
  unfold UnpackedFloat.round
  rw [Int.toNat_natCast, htarget]
  unfold UnpackedFloat.decreaseExponent
  dsimp only
  rw [show (0 - ((n.log2 : Int) - 52)).toNat = 52 - n.log2 by omega, Nat.shiftLeft_eq,
    show (0 : Int) - ((52 - n.log2 : Nat) : Int) = (n.log2 : Int) - 52 by omega]
  exact roundWithAccuracy_of_lt hle hlt (by omega) hshift

/-- A larger number is multiplied by a power of two, and rounded. -/
theorem ofScientific_eq (hne : n ≠ 0) : UnpackedFloat.ofScientific .binary64 n 0 =
    roundWithAccuracy .binary64 .positive (n * 2 ^ 53) (-53) .exact := by
  have hbits : Format.binary64.mantissaBits = 53 := rfl
  have hlow : ¬ (0 : Int) < -(2 ^ Format.binary64.exponentBits + (n.log2 : Int)) := by
    have hpow : (2 : Int) ^ Format.binary64.exponentBits = 2048 := by decide
    omega
  unfold UnpackedFloat.ofScientific
  rw [dif_neg hne, if_neg (by decide), if_neg hlow, if_pos (Int.le_refl 0)]
  unfold UnpackedFloat.mul
  dsimp only
  rw [hbits, Nat.shiftLeft_eq, Int.toNat_zero, Nat.pow_zero, Nat.mul_one, Int.add_zero]
  rfl

/-- The number is multiplied by one. -/
theorem toModel_ofNat_of_lt (hpos : 0 < n) (hlt : n < 2 ^ 53) (hlog : n.log2 ≤ 52) :
    (Float.ofNat n).toModel = pack (roundWithAccuracy .binary64 .positive
      (n * 2 ^ (52 - n.log2) * 2 ^ 52) ((n.log2 : Int) - 52 + -52) .exact) := by
  obtain ⟨hm, hexact⟩ := ofNat_of_log2_le hpos hlog
  obtain ⟨hle, hlt'⟩ := scaled_bounds hpos hlog
  have hmul : Float.ofNat n = n.toUInt64.toFloat * Float.ofBits 0x3FF0000000000000 := by
    show Float.ofScientific n false 0 = _
    unfold Float.ofScientific
    rw [dif_pos ⟨hlt, by decide⟩]
    rfl
  have hfloat : n.toUInt64.toFloat.toModel.unpack =
      .finite .positive (n * 2 ^ (52 - n.log2)) ((n.log2 : Int) - 52) hm := by
    show (pack (UnpackedFloat.ofNat .binary64 n.toUInt64.toNat)).unpack = _
    rw [Nat.toUInt64_eq, UInt64.toNat_ofNat_of_lt' (Nat.lt_trans hlt (by decide)), hexact]
    exact unpack_pack_finite hle hlt' (by omega) (by omega) hm
  have hone : (Float.ofBits 0x3FF0000000000000).toModel.unpack =
      .finite .positive (2 ^ 52) (-52) (by decide) := rfl
  rw [hmul]
  show pack (UnpackedFloat.mul .binary64 n.toUInt64.toFloat.toModel.unpack
    (Float.ofBits 0x3FF0000000000000).toModel.unpack) = _
  rw [hfloat, hone]
  rfl

/-- The float nearest to a number other than zero is normal. -/
theorem exists_isNormal_ofNat (hpos : 0 < n) (hlt : n < 2 ^ 64) :
    ∃ u, (Float.ofNat n).toModel = pack u ∧ IsNormal u .positive (nearestBits n) := by
  have hne : n ≠ 0 := Nat.ne_of_gt hpos
  have hlog := (Nat.log2_lt hne).mpr hlt
  have hbits : nearestBits n = (n.log2 + 1022) * 2 ^ 52 + roundedQuotient (n * 2 ^ 52) n.log2 :=
    if_neg hne
  rw [hbits]
  by_cases hsmall : n < 2 ^ 53
  · have hlog := (Nat.log2_lt hne).mpr hsmall
    refine ⟨_, toModel_ofNat_of_lt hpos hsmall (by omega), ?_⟩
    have hlog' : (n * 2 ^ (52 - n.log2) * 2 ^ 52).log2 = 52 + 52 := by
      rw [Nat.mul_assoc, ← Nat.pow_add, log2_mul_two_pow hne]
      omega
    have hnormal := isNormal_roundWithAccuracy (s := .positive) (e := (n.log2 : Int) - 52 + -52) hlog'
      (by omega) (by omega)
    have hquotient : roundedQuotient (n * 2 ^ (52 - n.log2) * 2 ^ 52) 52 =
        roundedQuotient (n * 2 ^ 52) n.log2 := by
      rw [← roundedQuotient_mul (n * 2 ^ 52) n.log2 (52 - n.log2), Nat.mul_right_comm,
        show n.log2 + (52 - n.log2) = 52 by omega]
    rwa [hquotient, show ((n.log2 : Int) - 52 + -52 + ((52 : Nat) : Int) + 1074).toNat =
      n.log2 + 1022 by omega] at hnormal
  · have hlarge : 53 ≤ n.log2 := (Nat.le_log2 hne).mpr (Nat.le_of_not_lt hsmall)
    have hmodel : (Float.ofNat n).toModel = Float.Model.ofScientific n 0 := by
      show (Float.ofScientific n false 0).toModel = _
      unfold Float.ofScientific
      rw [dif_neg fun h => hsmall h.1]
      rfl
    refine ⟨_, hmodel, ?_⟩
    have hlog' : (n * 2 ^ 53).log2 = 52 + (n.log2 + 1) := by
      rw [log2_mul_two_pow hne]
      omega
    have hnormal := isNormal_roundWithAccuracy (s := .positive) (e := -53) hlog' (by omega) (by omega)
    have hquotient : roundedQuotient (n * 2 ^ 53) (n.log2 + 1) =
        roundedQuotient (n * 2 ^ 52) n.log2 := by
      have hpow : n * 2 ^ 53 = n * 2 ^ 52 * 2 ^ 1 := by omega
      rw [hpow, roundedQuotient_mul]
    rw [ofScientific_eq hne]
    rwa [hquotient, show (-53 + ((n.log2 + 1 : Nat) : Int) + 1074).toNat = n.log2 + 1022 by omega]
      at hnormal

/-- Larger numbers have larger nearest doubles, or the same. -/
theorem nearestBits_mono (h : m ≤ n) : nearestBits m ≤ nearestBits n := by
  unfold nearestBits
  split
  · exact Nat.zero_le _
  · next hm =>
    have hn : n ≠ 0 := by omega
    have hlog : m.log2 ≤ n.log2 := (Nat.le_log2 hn).mpr (Nat.le_trans (Nat.log2_self_le hm) h)
    rw [if_neg hn]
    rcases Nat.eq_or_lt_of_le hlog with heq | hlt
    · rw [heq]
      exact Nat.add_le_add_left (roundedQuotient_mono (Nat.mul_le_mul_right _ h) _) _
    · have hshift : ∀ k ≠ 0, (k * 2 ^ 52).log2 = 52 + k.log2 := fun k hk => by
        rw [log2_mul_two_pow hk, Nat.add_comm]
      have hbelow := (div_two_pow_bounds (hshift m hm)).2
      have habove := (div_two_pow_bounds (hshift n hn)).1
      have hm' := roundedQuotient_le (m * 2 ^ 52) m.log2
      have hn' := le_roundedQuotient (n * 2 ^ 52) n.log2
      omega

/-! ## Integers -/

/-- The place of the double nearest to an integer. -/
def nearestKey (n : Int) : Int :=
  if 0 ≤ n then nearestBits n.toNat else -1 - (nearestBits (-n).toNat : Int)

theorem nearestKey_mono {m n : Int} (h : m ≤ n) : nearestKey m ≤ nearestKey n := by
  unfold nearestKey
  split
  · rw [if_pos (by omega)]
    exact Int.ofNat_le.mpr (nearestBits_mono (by omega))
  · split
    · omega
    · have hle := nearestBits_mono (m := (-n).toNat) (n := (-m).toNat) (by omega)
      omega

/-- The place of a normal number. -/
theorem IsNormal.key_canonical {u : UnpackedFloat} (h : IsNormal u s n) {x : Double}
    (hx : x.bits = (pack u).toBits) : x.isNaN = false ∧
      x.canonical.key = if s.toBitVec = 0#1 then (n : Int) else -1 - (n : Int) := by
  obtain ⟨hpos, hlt⟩ := h.lt_infinity
  have hbits := h.toNat_bits
  rw [← hx] at hbits
  have hmagnitude : x.magnitude = n := by
    unfold magnitude signBit
    unfold infinity at hlt
    omega
  have hnan : ¬ x.isNaN = true := by
    unfold isNaN
    rw [hmagnitude, decide_eq_true_iff]
    omega
  have hnegative : x.isNegative = !decide (s.toBitVec = 0#1) := by
    unfold isNegative signBit
    unfold infinity at hlt
    rw [hbits]
    cases s with
    | positive => exact decide_eq_false (by show ¬ _ ≤ 0 * 2 ^ 63 + n; omega)
    | negative => exact decide_eq_true (by show _ ≤ 1 * 2 ^ 63 + n; omega)
  refine ⟨Bool.eq_false_iff.mpr hnan, ?_⟩
  unfold canonical
  rw [if_neg hnan, if_neg (by omega)]
  unfold key
  rw [hnegative, hmagnitude]
  cases s <;> rfl

end Double

namespace Scalar

open Double

theorem nearestKey_ofNat (k : Nat) : nearestKey (.ofNat k) = nearestBits k :=
  if_pos (Int.natCast_nonneg k)

theorem nearestKey_negSucc (k : Nat) : nearestKey (.negSucc k) = -1 - (nearestBits (k + 1) : Int) :=
  if_neg (Int.not_le_of_gt (Int.negSucc_lt_zero k))

/-- The double nearest to an integer is a number, in the place of the integer. -/
theorem key_nearest (n : Int64) :
    (nearest n).isNaN = false ∧ (nearest n).canonical.key = nearestKey n.toInt := by
  have hlow := Int64.le_toInt n
  have hhigh := Int64.toInt_lt n
  unfold nearest
  generalize n.toInt = k at hlow hhigh
  cases k with
  | ofNat k =>
      rw [nearestKey_ofNat]
      rcases Nat.eq_zero_or_pos k with rfl | hpos
      · exact ⟨by decide +kernel, by decide +kernel⟩
      · have hlt : k < 2 ^ 64 := by
          rw [Int.ofNat_eq_natCast] at hhigh
          omega
        obtain ⟨u, hu, hnormal⟩ := exists_isNormal_ofNat hpos hlt
        have hbits : (Double.ofFloat (Float.ofInt (.ofNat k))).bits = (pack u).toBits := by
          rw [← hu]
          rfl
        have hkey := hnormal.key_canonical hbits
        rwa [if_pos (by decide)] at hkey
  | negSucc k =>
      rw [nearestKey_negSucc]
      have hlt : k + 1 < 2 ^ 64 := by
        omega
      obtain ⟨u, hu, hnormal⟩ := exists_isNormal_ofNat (Nat.succ_pos k) hlt
      have hbits : (Double.ofFloat (Float.ofInt (.negSucc k))).bits = (pack u.neg).toBits := by
        show (pack (Float.ofNat (k + 1)).toModel.unpack.neg).toBits = _
        rw [hu, hnormal.unpack_pack]
      have hkey := hnormal.neg.key_canonical hbits
      rwa [if_neg (by decide)] at hkey

end Scalar

end QueryPlanner
