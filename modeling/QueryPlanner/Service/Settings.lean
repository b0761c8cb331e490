/-
# Settings of the service

Where the service listens and how long its searches may go on. Each setting has a
default and may be given as text; a number that cannot be read is left at its default.
-/
import QueryPlanner.Search

namespace QueryPlanner

/-- The settings of the service. -/
structure Settings where
  address : String := "0.0.0.0:3000"
  budget : Budget := {}
  deriving DecidableEq, Repr, Inhabited

namespace Settings

/-- Reads a 64-bit count: decimal digits, after a plus sign or without. -/
def count? (s : String) : Option Nat :=
  let digits := match s.toList with
    | '+' :: rest => rest
    | cs => cs
  if digits.isEmpty || !digits.all Char.isDigit then none
  else
    let n := digits.foldl (fun n d => 10 * n + (d.toNat - '0'.toNat)) 0
    if n < UInt64.size then some n else none

/-- The settings with those replaced that are given as text. -/
def ofTexts (address iterations groups : Option String) : Settings :=
  let standard : Settings := {}
  { address := address.getD standard.address
    budget :=
      { iterations := (iterations.bind count?).getD standard.budget.iterations
        groups := (groups.bind count?).getD standard.budget.groups } }

end Settings

end QueryPlanner
