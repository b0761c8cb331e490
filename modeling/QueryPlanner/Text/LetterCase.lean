/-
# Upper and lower case

Full case conversion of a text: a character may turn into several, and a capital
sigma turns into the final form `ς` at the end of a word.
-/
import QueryPlanner.Text.LetterCase.Table

namespace QueryPlanner

namespace Text

/-- Whether a run of the table covers the code point. -/
def CaseRun.covers (r : CaseRun) (n : Nat) : Bool :=
  decide (r.first ≤ n) && decide (n ≤ r.last) && (n - r.first) % r.step == 0

/-- The form of one character by a pair of tables; characters outside them keep theirs. -/
def convert (runs : List CaseRun) (expansions : List (Nat × List Nat)) (c : Char) : List Char :=
  match expansions.find? (fun (n, _) => n == c.toNat) with
  | some (_, form) => form.map Char.ofNat
  | none =>
      match runs.find? (fun r => r.covers c.toNat) with
      | some r => [Char.ofNat (c.toNat + r.shift).toNat]
      | none => [c]

/-- The upper-case form of one character. -/
def upperForm (c : Char) : List Char :=
  if c.toNat < 0x80 then [c.toUpper] else convert upperRuns upperExpansions c

/-- The lower-case form of one character, away from the end of a word. -/
def lowerForm (c : Char) : List Char :=
  if c.toNat < 0x80 then [c.toLower] else convert lowerRuns lowerExpansions c

/-- Whether the first character that counts for a word's case is a cased letter. -/
def meetsCased (cs : List Char) : Bool :=
  match cs.dropWhile (fun c => inRanges caseIgnoredRanges c.toNat) with
  | [] => false
  | c :: _ => inRanges casedRanges c.toNat

/-- Lower-cases what follows `before`, a reversed list of the characters already seen. -/
def lowerAfter : List Char → List Char → List Char
  | _, [] => []
  | before, c :: rest =>
      (if c = 'Σ' then
        (if meetsCased before && !meetsCased rest then ['ς'] else ['σ'])
      else lowerForm c) ++ lowerAfter (c :: before) rest

/-- A text in upper case. -/
def upper (s : String) : String := String.ofList (s.toList.flatMap upperForm)

/-- A text in lower case. -/
def lower (s : String) : String := String.ofList (lowerAfter [] s.toList)

end Text

end QueryPlanner
