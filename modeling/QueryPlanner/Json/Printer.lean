/-
# Writing JSON

`Json.compact` writes a value without blanks, the members of an object in the order
of their keys. A float that is no number is written `null`.
-/
import QueryPlanner.Json
import QueryPlanner.Decimal.Style

namespace QueryPlanner

namespace Json

/-- Two hexadecimal digits of a number below 256. -/
def hex2 (n : Nat) : String := String.ofList [Nat.digitChar (n / 16), Nat.digitChar (n % 16)]

/-- How a character is written inside a JSON string. -/
def escape (c : Char) : String :=
  if c = '"' then "\\\""
  else if c = '\\' then "\\\\"
  else if c = '\n' then "\\n"
  else if c = '\r' then "\\r"
  else if c = '\t' then "\\t"
  else if c.toNat = 8 then "\\b"
  else if c.toNat = 12 then "\\f"
  else if c.toNat < 0x20 then "\\u00" ++ hex2 c.toNat
  else String.singleton c

/-- A text as a JSON string. -/
def quote (s : String) : String := "\"" ++ String.join (s.toList.map escape) ++ "\""

/-- A float as a JSON number. -/
def floatText (x : Float) : String :=
  if x.isNaN || x.isInf then "null" else Decimal.interchange.render x

mutual

/-- Writes a value. -/
def compact : Json → String
  | null => "null"
  | bool b => if b then "true" else "false"
  | int n => toString n
  | float x => floatText x
  | text s => quote s
  | array items => "[" ++ ",".intercalate (compactItems items) ++ "]"
  | object members =>
      let sorted := (compactMembers members).mergeSort fun a b => !decide (b.1 < a.1)
      "\x7b" ++ ",".intercalate (sorted.map fun (k, v) => quote k ++ ":" ++ v) ++ "\x7d"
  | unreadable => "null"

/-- Writes every item. -/
def compactItems : List Json → List String
  | [] => []
  | item :: rest => compact item :: compactItems rest

/-- Writes the value of every member beside its key. -/
def compactMembers : List (String × Json) → List (String × String)
  | [] => []
  | (k, v) :: rest => (k, compact v) :: compactMembers rest

end

end Json

end QueryPlanner
