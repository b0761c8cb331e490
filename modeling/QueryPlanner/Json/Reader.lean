/-
# Reading JSON

`Json.parse?` reads one JSON value and nothing after it. Every reading function
takes the characters left and gives back those it did not use.

The nested parts of a value are read with fuel. One unit for each character and one
more is enough: every value has a character of its own, and so has every item or member,
namely the bracket, brace or comma before it.
-/
import QueryPlanner.Json

namespace QueryPlanner

namespace Json

/-- Drops the blanks JSON allows between its tokens. -/
def skipBlanks : List Char → List Char
  | [] => []
  | c :: rest => if c = ' ' ∨ c = '\n' ∨ c = '\t' ∨ c = '\r' then skipBlanks rest else c :: rest

/-! ## Numbers -/

/-- The value of decimal digits read after `acc`. -/
def digitsValue (acc : Nat) (ds : List Char) : Nat :=
  ds.foldl (fun n d => 10 * n + (d.toNat - '0'.toNat)) acc

/-- The digits at the front, if there are any, and what follows them. -/
def digits1 (cs : List Char) : Option (List Char × List Char) :=
  match cs.takeWhile Char.isDigit with
  | [] => none
  | ds => some (ds, cs.dropWhile Char.isDigit)

/-- An integer part: one zero, or digits that do not start with a zero. -/
def integerPart : List Char → Option (List Char × List Char)
  | '0' :: rest => match rest with
    | c :: _ => if c.isDigit then none else some (['0'], rest)
    | [] => some (['0'], rest)
  | cs => digits1 cs

/-- A fraction, empty when no point follows. -/
def fractionPart : List Char → Option (List Char × List Char)
  | '.' :: rest => digits1 rest
  | cs => some ([], cs)

/-- The digits of an exponent after its optional sign. -/
def signedExponent (cs : List Char) : Option (Option Int × List Char) :=
  let (negative, body) := match cs with
    | '+' :: rest => (false, rest)
    | '-' :: rest => (true, rest)
    | rest => (false, rest)
  (digits1 body).map fun (ds, rest) =>
    let e : Int := digitsValue 0 ds
    (some (if negative then -e else e), rest)

/-- An exponent, absent when no letter `e` follows. -/
def exponentPart : List Char → Option (Option Int × List Char)
  | 'e' :: rest => signedExponent rest
  | 'E' :: rest => signedExponent rest
  | cs => some (none, cs)

/-- The float nearest to `n * 10 ^ e`, absent beyond the range of a float. -/
def nearestFloat (n : Nat) (e : Int) : Option Float :=
  if n = 0 then some 0.0
  else
    let top := e + (toString n).length
    if 400 < top then none
    else if top < -400 then some 0.0
    else
      let x := if 0 ≤ e then Float.ofScientific n false e.toNat else Float.ofScientific n true (-e).toNat
      if x.isInf then none else some x

/-- The value of a number's parts. Without fraction and exponent it is an integer if it
fits 64 bits, and a negative zero never is. -/
def numberValue (negative : Bool) (whole fraction : List Char) (exponent : Option Int) : Json :=
  let n := digitsValue 0 whole
  let integral := fraction.isEmpty && exponent.isNone
  if integral && !negative && decide (n < UInt64.size) then int n
  else if integral && negative && decide (0 < n ∧ n ≤ Int64.minValue.toInt.natAbs) then
    int (-(n : Int))
  else
    match nearestFloat (digitsValue n fraction) (exponent.getD 0 - fraction.length) with
    | some x => float (if negative then -x else x)
    | none => unreadable

/-- Reads a number. -/
def number (cs : List Char) : Option (Json × List Char) := do
  let (negative, body) := match cs with
    | '-' :: rest => (true, rest)
    | rest => (false, rest)
  let (whole, rest) ← integerPart body
  let (fraction, rest) ← fractionPart rest
  let (exponent, rest) ← exponentPart rest
  pure (numberValue negative whole fraction exponent, rest)

/-! ## Strings -/

/-- The value of one hexadecimal digit. -/
def hexValue (c : Char) : Option Nat :=
  if c.isDigit then some (c.toNat - '0'.toNat)
  else if 'a' ≤ c ∧ c ≤ 'f' then some (c.toNat - 'a'.toNat + 10)
  else if 'A' ≤ c ∧ c ≤ 'F' then some (c.toNat - 'A'.toNat + 10)
  else none

/-- Four hexadecimal digits. -/
def hex4 : List Char → Option (Nat × List Char)
  | a :: b :: c :: d :: rest => do
      let a ← hexValue a
      let b ← hexValue b
      let c ← hexValue c
      let d ← hexValue d
      pure (((a * 16 + b) * 16 + c) * 16 + d, rest)
  | _ => none

/-- The character of a simple escape. -/
def simpleEscape : Char → Option Char
  | '"' => some '"'
  | '\\' => some '\\'
  | '/' => some '/'
  | 'b' => some (Char.ofNat 8)
  | 'f' => some (Char.ofNat 12)
  | 'n' => some '\n'
  | 'r' => some '\r'
  | 't' => some '\t'
  | _ => none

/-- The 16-bit units of a string: a character, or a number written in hexadecimal. -/
inductive StringUnit where
  | char (c : Char)
  | code (n : Nat)

/-- Reads the inside of a string up to its closing quote. -/
def stringUnits : Nat → List Char → Option (List StringUnit × List Char)
  | 0, _ => none
  | _, [] => none
  | _, '"' :: rest => some ([], rest)
  | fuel + 1, '\\' :: 'u' :: rest => do
      let (n, rest) ← hex4 rest
      let (units, rest) ← stringUnits fuel rest
      pure (.code n :: units, rest)
  | fuel + 1, '\\' :: c :: rest => do
      let c ← simpleEscape c
      let (units, rest) ← stringUnits fuel rest
      pure (.char c :: units, rest)
  | fuel + 1, c :: rest =>
      if c.toNat < 0x20 ∨ c = '\\' then none
      else do
        let (units, rest) ← stringUnits fuel rest
        pure (.char c :: units, rest)

/-- Joins surrogate pairs; half of a pair on its own has no character. -/
def joinUnits : List StringUnit → Option (List Char)
  | [] => some []
  | .char c :: rest => (joinUnits rest).map (c :: ·)
  | [.code n] => if 0xd800 ≤ n ∧ n < 0xe000 then none else some [Char.ofNat n]
  | .code n :: .code m :: rest =>
      if 0xd800 ≤ n ∧ n < 0xdc00 then
        if 0xdc00 ≤ m ∧ m < 0xe000 then
          (joinUnits rest).map (Char.ofNat (0x10000 + (n - 0xd800) * 0x400 + (m - 0xdc00)) :: ·)
        else none
      else if 0xdc00 ≤ n ∧ n < 0xe000 then none
      else (joinUnits (.code m :: rest)).map (Char.ofNat n :: ·)
  | .code n :: .char c :: rest =>
      if 0xd800 ≤ n ∧ n < 0xe000 then none
      else (joinUnits (.char c :: rest)).map (Char.ofNat n :: ·)

/-- Reads a string after its opening quote; its text is absent when it names no value. -/
def string (fuel : Nat) (cs : List Char) : Option (Option String × List Char) :=
  (stringUnits fuel cs).map fun (units, rest) => ((joinUnits units).map String.ofList, rest)

/-! ## Values -/

/-- Reads a fixed word. -/
def word (w : List Char) (value : Json) (cs : List Char) : Option (Json × List Char) :=
  if w.isPrefixOf cs then some (value, cs.drop w.length) else none

/-- An object, unless one of its keys names no text. -/
def objectOf (members : List (Option String × Json)) : Json :=
  match members.mapM (fun (k, v) => k.map (·, v)) with
  | some members => object members
  | none => unreadable

mutual

/-- Reads a value whose first character comes next. -/
def value : Nat → List Char → Option (Json × List Char)
  | 0, _ => none
  | _, [] => none
  | fuel + 1, c :: rest =>
      if c = '"' then
        (string fuel rest).map fun (s, rest) => (s.elim unreadable text, rest)
      else if c = '[' then
        match skipBlanks rest with
        | ']' :: rest => some (array [], rest)
        | rest => (items fuel rest).map fun (vs, rest) => (array vs, rest)
      else if c = '\x7b' then
        match skipBlanks rest with
        | '\x7d' :: rest => some (object [], rest)
        | rest => (members fuel rest).map fun (ms, rest) => (objectOf ms, rest)
      else if c = 't' then word ['r', 'u', 'e'] (bool true) rest
      else if c = 'f' then word ['a', 'l', 's', 'e'] (bool false) rest
      else if c = 'n' then word ['u', 'l', 'l'] null rest
      else number (c :: rest)

/-- Reads the items of an array up to its closing bracket. -/
def items : Nat → List Char → Option (List Json × List Char)
  | 0, _ => none
  | fuel + 1, cs => do
      let (v, rest) ← value fuel cs
      match skipBlanks rest with
      | ',' :: rest =>
          let (vs, rest) ← items fuel (skipBlanks rest)
          pure (v :: vs, rest)
      | ']' :: rest => pure ([v], rest)
      | _ => none

/-- Reads the members of an object up to its closing brace. -/
def members : Nat → List Char → Option (List (Option String × Json) × List Char)
  | 0, _ => none
  | fuel + 1, cs => do
      match cs with
      | '"' :: rest =>
          let (key, rest) ← string fuel rest
          match skipBlanks rest with
          | ':' :: rest =>
              let (v, rest) ← value fuel (skipBlanks rest)
              match skipBlanks rest with
              | ',' :: rest =>
                  let (ms, rest) ← members fuel (skipBlanks rest)
                  pure ((key, v) :: ms, rest)
              | '\x7d' :: rest => pure ([(key, v)], rest)
              | _ => none
          | _ => none
      | _ => none

end

/-- Reads a text that holds one JSON value and nothing else. -/
def parse? (s : String) : Option Json :=
  let cs := s.toList
  match value (cs.length + 1) (skipBlanks cs) with
  | some (v, rest) => if (skipBlanks rest).isEmpty then some v else none
  | none => none

end Json

end QueryPlanner
