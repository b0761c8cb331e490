/-
# The shortest decimal that reads back

A positive finite float stands for every real number that rounds to it. Among
those reals, this module finds a decimal with as few digits as possible, and of
several such the one nearest to the float.

The search works in exact natural-number arithmetic: for one digit, two digits
and so on it looks at the two neighbours of the value on that decimal grid and
stops at the first grid where one of them reads back.
-/

namespace QueryPlanner

namespace Decimal

/-- A decimal number `significand * 10 ^ exponent`. -/
structure Scientific where
  significand : Nat
  exponent : Int
  deriving DecidableEq, Repr, Inhabited

/-- Which neighbour wins when both are equally near. -/
inductive TieRule where
  /-- The larger neighbour. -/
  | up
  /-- The neighbour whose last digit is even. -/
  | even
  deriving DecidableEq, Repr, Inhabited

/-- How many decimal digits `n` has; none for zero. -/
def digitCount (n : Nat) : Nat := if n = 0 then 0 else (Nat.toDigits 10 n).length

/-! ## Floats as exact fractions -/

/-- The real numbers that read back as one float: those between `low / unit` and
`high / unit`, the ends included when `closed`. The float itself is `value / unit`. -/
structure Interval where
  low : Nat
  value : Nat
  high : Nat
  unit : Nat
  closed : Bool
  deriving Repr, Inhabited

/-- The fraction field of a float's bits. -/
def fractionBits (x : Float) : Nat := x.toBits.toNat % (1 <<< 52)

/-- The exponent field of a float's bits. -/
def exponentBits (x : Float) : Nat := (x.toBits.toNat >>> 52) % (1 <<< 11)

/-- Whether the sign bit is set. -/
def isNegative (x : Float) : Bool := x.toBits.toNat >>> 63 == 1

/-- The significand of a finite float, its leading one included. -/
def mantissa (x : Float) : Nat :=
  if exponentBits x = 0 then fractionBits x else (1 <<< 52) + fractionBits x

/-- The power of two that scales `mantissa`, counted up from `2 ^ (-1074)`. -/
def scale (x : Float) : Nat := exponentBits x - 1

/-- The interval of a finite float, sign aside. Its lower half is only half as wide
where the float below has a smaller exponent. -/
def interval (x : Float) : Interval :=
  let m := mantissa x
  let below := if fractionBits x = 0 ∧ 1 < exponentBits x then 1 else 2
  { low := (4 * m - below) <<< scale x
    value := (4 * m) <<< scale x
    high := (4 * m + 2) <<< scale x
    unit := 4 <<< 1074
    closed := m % 2 == 0 }

/-- A finite float as a fraction, sign aside. -/
def fraction (x : Float) : Nat × Nat := (mantissa x <<< scale x, 1 <<< 1074)

/-! ## The decimal grids -/

/-- The power of ten just above `num / den`: the least `p` with `num / den < 10 ^ p`. -/
def point (num den : Nat) : Int :=
  if den ≤ num then digitCount (num / den) else 1 - (digitCount ((den - 1) / num) : Int)

/-- Compares the decimal `n * 10 ^ e` with `num / den`. -/
def compareWith (n : Nat) (e : Int) (num den : Nat) : Ordering :=
  if 0 ≤ e then compare (n * Nat.pow 10 e.toNat * den) num
  else compare (n * den) (num * Nat.pow 10 (-e).toNat)

/-- Whether `n * 10 ^ e` lies in the interval. -/
def Interval.holds (i : Interval) (n : Nat) (e : Int) : Bool :=
  let below := compareWith n e i.low i.unit
  let above := compareWith n e i.high i.unit
  if i.closed then below != .lt && above != .gt else below == .gt && above == .lt

/-- The largest `n` with `n * 10 ^ e ≤ num / den`. -/
def floorAt (e : Int) (num den : Nat) : Nat :=
  if 0 ≤ e then num / (den * Nat.pow 10 e.toNat) else num * Nat.pow 10 (-e).toNat / den

/-- Which of `n * 10 ^ e` and `(n + 1) * 10 ^ e` is nearer to the float. -/
def nearer (tie : TieRule) (i : Interval) (n : Nat) (e : Int) : Nat :=
  match compareWith (2 * n + 1) e (2 * i.value) i.unit with
  | .gt => n
  | .lt => n + 1
  | .eq => match tie with
    | .up => n + 1
    | .even => if n % 2 = 0 then n else n + 1

/-- The neighbour of the float on the grid of step `10 ^ e` that reads back. -/
def onGrid (tie : TieRule) (i : Interval) (e : Int) : Option Nat :=
  let n := floorAt e i.value i.unit
  match i.holds n e && decide (0 < n), i.holds (n + 1) e with
  | true, true => some (nearer tie i n e)
  | true, false => some n
  | false, true => some (n + 1)
  | false, false => none

/-- Drops trailing zeros of the significand. -/
def trim : Nat → Scientific → Scientific
  | 0, s => s
  | fuel + 1, s =>
      if s.significand ≠ 0 ∧ s.significand % 10 = 0 then
        trim fuel ⟨s.significand / 10, s.exponent + 1⟩
      else s

/-- Tries grids of `count`, `count + 1`, … digits; seventeen always suffice. -/
def search (tie : TieRule) (i : Interval) (top : Int) : Nat → Nat → Scientific
  | 0, count => ⟨floorAt (top - count) i.value i.unit, top - count⟩
  | fuel + 1, count =>
      match onGrid tie i (top - count) with
      | some n => ⟨n, top - count⟩
      | none => search tie i top fuel (count + 1)

/-- The shortest decimal that reads back as the finite float `x`, sign aside. -/
def shortest (tie : TieRule) (x : Float) : Scientific :=
  let i := interval x
  if i.value = 0 then ⟨0, 0⟩
  else trim 20 (search tie i (point i.value i.unit) 17 1)

end Decimal

end QueryPlanner
