/-
# The hash of a text

SipHash under the key of zeros, with one round for each word and three rounds at the end. It is
taken of the bytes of the text and of one more that is in no text.
-/

namespace QueryPlanner

namespace Text

/-- The words that a hash is mixed in. -/
structure Mixer where
  a : UInt64
  b : UInt64
  c : UInt64
  d : UInt64

namespace Mixer

/-- The words before anything is mixed in: the key of zeros leaves them as they are. -/
def start : Mixer where
  a := 0x736f6d6570736575
  b := 0x646f72616e646f6d
  c := 0x6c7967656e657261
  d := 0x7465646279746573

/-- The bits of a word, moved in a circle to the left. -/
def rotate (word count : UInt64) : UInt64 := word <<< count ||| word >>> (64 - count)

/-- One round. -/
def round (m : Mixer) : Mixer :=
  let a := m.a + m.b
  let c := m.c + m.d
  let b := rotate m.b 13 ^^^ a
  let d := rotate m.d 16 ^^^ c
  let a := rotate a 32 + d
  let c := c + b
  { a := a, b := rotate b 17 ^^^ c, c := rotate c 32, d := rotate d 21 ^^^ a }

/-- Mixes one word in. -/
def mix (m : Mixer) (word : UInt64) : Mixer :=
  let m := { m with d := m.d ^^^ word }.round
  { m with a := m.a ^^^ word }

/-- The hash after all words were mixed in. -/
def finish (m : Mixer) : UInt64 :=
  let m := { m with c := m.c ^^^ 0xff }.round.round.round
  m.a ^^^ m.b ^^^ m.c ^^^ m.d

end Mixer

/-- Up to eight bytes as a word, the first one lowest. -/
def wordOf (bytes : List UInt8) : UInt64 :=
  bytes.foldr (fun byte word => word <<< 8 ||| byte.toUInt64) 0

/-- Mixes bytes in, eight at a time. The last word has the rest and, highest, the number of all. -/
def mixBytes (size : Nat) : List UInt8 → Mixer → Mixer
  | a :: b :: c :: d :: e :: f :: g :: h :: rest, m =>
      mixBytes size rest (m.mix (wordOf [a, b, c, d, e, f, g, h]))
  | rest, m => m.mix (UInt64.ofNat size <<< 56 ||| wordOf rest)

/-- The hash of a text. -/
def hash (s : String) : UInt64 :=
  let bytes := s.toList.flatMap String.utf8EncodeChar ++ [0xff]
  (mixBytes bytes.length bytes .start).finish

end Text

end QueryPlanner
