/-
# Ways to write a float

Three styles share the digits of `Decimal.shortest` and differ in where they
stop writing a number positionally:

* `plain` never uses an exponent and drops an empty fraction: `1`, `0.000001`;
* `tagged` keeps a fraction, and uses an exponent below `10 ^ -4` and from
  `10 ^ 16` on: `1.0`, `1e16`;
* `interchange` is the one JSON texts use: `1.0`, `1e+16`, `1.5e-7`.

`fixed` writes a float rounded to a given number of places instead.
-/
import QueryPlanner.Decimal.Shortest

namespace QueryPlanner

namespace Decimal

/-- What decides how a decimal is written. -/
structure Style where
  /-- The least power of ten, as the point's position, that is written positionally;
  everything below is, when absent. -/
  least : Option Int
  /-- The greatest power of ten that is written positionally. -/
  greatest : Option Int
  /-- What stands for an empty fraction. -/
  emptyFraction : String
  /-- What stands before an exponent that is not negative. -/
  exponentSign : String
  /-- The neighbour taken between two equally near decimals. -/
  tie : TieRule

/-- Always positional, with no fraction where none is needed. -/
def plain : Style := ⟨none, none, "", "", .up⟩

/-- Positional from `10 ^ -4` up to `10 ^ 16`, and always with a fraction. -/
def tagged : Style := ⟨some (-3), some 16, ".0", "", .up⟩

/-- Positional from `10 ^ -5` up to `10 ^ 16`, always with a fraction, and with a sign in
every exponent. -/
def interchange : Style := ⟨some (-4), some 16, ".0", "+", .even⟩

/-- `n` zeros. -/
def zeros (n : Nat) : String := String.ofList (List.replicate n '0')

/-- Digits with the decimal point `point` places after their start. -/
def positional (emptyFraction digits : String) (point : Int) : String :=
  if point ≤ 0 then "0." ++ zeros (-point).toNat ++ digits
  else if point < digits.length then
    String.ofList (digits.toList.take point.toNat) ++ "." ++
      String.ofList (digits.toList.drop point.toNat)
  else digits ++ zeros (point.toNat - digits.length) ++ emptyFraction

/-- One digit, the others as a fraction, and the power of ten. -/
def exponential (sign digits : String) (point : Int) : String :=
  let rest := String.ofList (digits.toList.drop 1)
  String.ofList (digits.toList.take 1) ++ (if rest.isEmpty then "" else "." ++ rest) ++
    "e" ++ (if 1 ≤ point then sign else "") ++ toString (point - 1)

/-- Writes a finite number, sign aside. -/
def Style.magnitude (f : Style) (x : Float) : String :=
  let s := shortest f.tie x
  if s.significand = 0 then "0" ++ f.emptyFraction
  else
    let digits := toString s.significand
    let point := s.exponent + digits.length
    let positionally :=
      f.least.all (fun least => decide (least ≤ point)) &&
        f.greatest.all (fun greatest => decide (point ≤ greatest))
    if positionally then positional f.emptyFraction digits point
    else exponential f.exponentSign digits point

/-- Writes a float; the two infinities and the not-a-number have names. -/
def Style.render (f : Style) (x : Float) : String :=
  if x.isNaN then "NaN"
  else
    (if isNegative x then "-" else "") ++ (if x.isInf then "inf" else f.magnitude x)

/-! ## Fixed places -/

/-- `num / den` rounded to an integer, halves to the even neighbour. -/
def roundHalfEven (num den : Nat) : Nat :=
  let q := num / den
  match compare (2 * (num % den)) den with
  | .lt => q
  | .gt => q + 1
  | .eq => if q % 2 = 0 then q else q + 1

/-- Puts a decimal point before the last `places` digits of `n`. -/
def withPlaces (places n : Nat) : String :=
  if places = 0 then toString n
  else
    let digits := toString n
    let padded := zeros (places + 1 - digits.length) ++ digits
    let whole := padded.length - places
    String.ofList (padded.toList.take whole) ++ "." ++ String.ofList (padded.toList.drop whole)

/-- Writes a float with exactly `places` digits after the point, from its exact value. -/
def fixed (places : Nat) (x : Float) : String :=
  if x.isNaN then "NaN"
  else
    let sign := if isNegative x then "-" else ""
    if x.isInf then sign ++ "inf"
    else
      let (num, den) := fraction x
      sign ++ withPlaces places (roundHalfEven (num * Nat.pow 10 places) den)

end Decimal

end QueryPlanner
