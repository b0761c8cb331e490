/-
# Doubles

A double is a float of 64 bits, kept as these bits, so that its order and its likeness
can be read off them. Arithmetic on doubles is that of `Float`.

* `canonical_canonical` : the representative of a double represents itself;
* `key_canonical_le` : no double is above the not-a-number.
-/

namespace QueryPlanner

/-- The bits of a 64-bit float. -/
structure Double where
  bits : UInt64
  deriving DecidableEq, Repr, Inhabited

namespace Double

/-- The float with these bits. -/
def toFloat (x : Double) : Float := Float.ofBits x.bits

/-- The bits of a float. -/
def ofFloat (x : Float) : Double := ⟨x.toBits⟩

/-- The sign bit, above all others. -/
def signBit : Nat := 0x8000000000000000

/-- Whether the sign bit is set. -/
def isNegative (x : Double) : Bool := decide (signBit ≤ x.bits.toNat)

/-- The bits without the sign bit; they order the absolute values. -/
def magnitude (x : Double) : Nat := x.bits.toNat % signBit

/-- The magnitude of infinity, above which there are only not-a-numbers. -/
def infinity : Nat := 0x7ff0000000000000

/-- Whether this is a not-a-number. -/
def isNaN (x : Double) : Bool := decide (infinity < x.magnitude)

/-- The not-a-number that represents all of them. -/
def nan : Double := ⟨0x7ff8000000000000⟩

/-- The zero that represents both of them. -/
def zero : Double := ⟨0⟩

/-- The representative of the doubles of the same value. -/
def canonical (x : Double) : Double :=
  if x.isNaN then nan else if x.magnitude = 0 then zero else x

/-- The double with the other sign. -/
def neg (x : Double) : Double := ⟨x.bits ^^^ 0x8000000000000000⟩

/-- The double without its sign. -/
def abs (x : Double) : Double := ⟨x.bits &&& 0x7fffffffffffffff⟩

/-! ## Order -/

/-- A number for each double, which orders them: negative zero is below zero, and a
not-a-number is above or below everything else as its sign says. -/
def key (x : Double) : Int := if x.isNegative then -1 - (x.magnitude : Int) else x.magnitude

/-- The order of doubles by value, with the not-a-number above all others. -/
def compare (a b : Double) : Ordering := Ord.compare a.canonical.key b.canonical.key

/-! ## Canonical forms -/

/-- A representative represents itself. -/
theorem canonical_canonical (x : Double) : x.canonical.canonical = x.canonical := by
  unfold canonical
  by_cases hn : x.isNaN
  · rw [if_pos hn]
    decide
  · rw [if_neg hn]
    by_cases hz : x.magnitude = 0
    · rw [if_pos hz]
      decide
    · rw [if_neg hz, if_neg hn, if_neg hz]

/-- A magnitude has 63 bits. -/
theorem magnitude_lt (x : Double) : x.magnitude < signBit := by
  unfold magnitude
  exact Nat.mod_lt _ (by decide)

/-- No double is above the not-a-number. -/
theorem key_canonical_le (x : Double) : x.canonical.key ≤ nan.key := by
  have hnan : nan.key = 0x7ff8000000000000 := by decide
  rw [hnan]
  unfold canonical
  by_cases hn : x.isNaN
  · rw [if_pos hn]
    exact Int.le_of_eq hnan
  · rw [if_neg hn]
    by_cases hz : x.magnitude = 0
    · rw [if_pos hz]
      decide
    · rw [if_neg hz]
      have hm : x.magnitude ≤ 0x7ff0000000000000 := by
        unfold isNaN infinity at hn
        exact Nat.le_of_not_lt fun h => hn (decide_eq_true h)
      unfold key
      split
      · omega
      · omega

end Double

end QueryPlanner
