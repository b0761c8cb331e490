/-
# Convertlets

A convertlet bridges one ordered pair of conventions: it prices the conversion during
the search and turns the fragment of one convention into one of the other afterwards.

| from | to | bridge |
|------|----|--------|
| `FEDERATED` | `ITERATOR` | fetch the rows from their source |
| `ITERATOR` | `COMPILED` | loop over a cursor |
| `COMPILED` | `ITERATOR` | run the loop and hold back what it emits |
| `COMPILED` | `COMPILED_RECORD` | see the current row as a record |
| `COMPILED_RECORD` | `COMPILED` | flatten the current record into a row |
-/
import QueryPlanner.Code.Generation
import QueryPlanner.Quantity

namespace QueryPlanner

open Quantity

/-- The bridge from one convention to another. -/
structure Convertlet (ν : Type) where
  source : Convention
  target : Convention
  /-- The cost of converting some rows of a row type. -/
  price : RowType → ν → ν
  /-- The fragment in the target convention for one in the source convention. -/
  realize : Fragment → RowType → Generate Fragment

namespace Convertlet

section Pair

variable {ν : Type}

/-- The conventions that a convertlet leads from and to. -/
def pair (c : Convertlet ν) : Convention × Convention := (c.source, c.target)

end Pair

variable {ν : Type} [Quantity ν]

/-- The complaint about an input that is no fragment of the source convention. -/
def mismatch {α : Type} (source target : Convention) (expected : String) : Generate α :=
  throw (.fragmentMismatch ("Converter[" ++ source.name ++ " -> " ++ target.name ++ "]") expected)

/-- Fetches rows from a foreign source; wide rows cost more on their way. -/
def fetch : Convertlet ν where
  source := .federated
  target := .iterator
  price t rows := rows * (ofNat 2 + ofDecimal 1 1 * ofNat t.width)
  realize child _ :=
    match child with
    | .remote table _ => pure (.iterator (.fetch table))
    | _ => mismatch .federated .iterator "remote"

/-- Loops over the rows of a pipeline in generated code. -/
def loop : Convertlet ν where
  source := .iterator
  target := .compiled
  price _ rows := rows * ofDecimal 1 1
  realize child _ :=
    match child with
    | .iterator source => do
        let cursor ← Generate.fresh
        let row ← Generate.fresh
        pure (.code ⟨[.openCursor cursor source,
          .whileDo (.hasNext cursor) [.assign row (.next cursor), .hole]], .var row⟩)
    | _ => mismatch .iterator .compiled "iterator"

/-- Runs generated code and holds back the rows that it emits. -/
def buffer : Convertlet ν where
  source := .compiled
  target := .iterator
  price t rows := rows * (ofNat 1 + ofDecimal 1 2 * ofNat t.width)
  realize child _ :=
    match child with
    | .code block => pure (.iterator (.materialize block.close))
    | _ => mismatch .compiled .iterator "code"

/-- Sees the current row as a record. -/
def toRecord : Convertlet ν where
  source := .compiled
  target := .compiledRecord
  price _ rows := rows * ofDecimal 5 2
  realize child t :=
    match child with
    | .code block => pure (.code (block.withRow (.toRecord block.row t.names)))
    | _ => mismatch .compiled .compiledRecord "code"

/-- Flattens the current record into a row. -/
def toRow : Convertlet ν where
  source := .compiledRecord
  target := .compiled
  price _ rows := rows * ofDecimal 5 2
  realize child t :=
    match child with
    | .code block => pure (.code (block.withRow (.toRow block.row t.names)))
    | _ => mismatch .compiledRecord .compiled "code"

/-- The convertlets every planner starts with. -/
def builtin : List (Convertlet ν) := [fetch, loop, buffer, toRecord, toRow]

end Convertlet

/-! ## Registered convertlets -/

/-- Adding an entry to a list and its number to an index of the entries by their keys. -/
theorem get?_insert_length_iff {α κ : Type} [DecidableEq κ] {key : α → κ} {entries : List α}
    {index : Dictionary κ Nat}
    (hindex : ∀ k i, index.get? k = some i ↔ entries[i]?.map key = some k) {a : α}
    (hnew : index.contains (key a) = false) (k : κ) (i : Nat) :
    (index.insert (key a) entries.length).get? k = some i ↔
      (entries ++ [a])[i]?.map key = some k := by
  rw [Dictionary.get?_insert]
  by_cases hkey : key a = k
  · subst hkey
    rw [if_pos rfl, Option.some.injEq]
    constructor
    · rintro rfl
      rw [List.getElem?_concat_length, Option.map_some]
    · intro hi
      rcases Nat.lt_trichotomy i entries.length with hlt | heq | hgt
      · -- an earlier entry of the key would have been in the index
        rw [List.getElem?_append_left hlt, ← hindex] at hi
        rw [Dictionary.contains, hi] at hnew
        cases hnew
      · exact heq.symm
      · rw [List.getElem?_eq_none (by rw [List.length_append]; exact hgt)] at hi
        cases hi
  · rw [if_neg hkey, hindex]
    rcases Nat.lt_trichotomy i entries.length with hlt | rfl | hgt
    · rw [List.getElem?_append_left hlt]
    · rw [List.getElem?_eq_none (Nat.le_refl _), List.getElem?_concat_length]
      constructor
      · intro h
        cases h
      · intro h
        exact absurd (Option.some.inj h) hkey
    · rw [List.getElem?_eq_none (Nat.le_of_lt hgt),
        List.getElem?_eq_none (by rw [List.length_append]; exact hgt)]

/-- Convertlets in registration order, with an index of the pairs that they bridge. -/
structure Convertlets (ν : Type) where
  entries : List (Convertlet ν)
  /-- Which of the entries bridges a pair. -/
  byPair : Dictionary (Convention × Convention) Nat
  /-- The index finds an entry under its pair and nothing else. -/
  indexed : ∀ pair i, byPair.get? pair = some i ↔ entries[i]?.map Convertlet.pair = some pair

namespace Convertlets

variable {ν : Type}

/-- No convertlets. -/
def empty : Convertlets ν := ⟨[], [], fun _ _ => ⟨nofun, nofun⟩⟩

instance : Inhabited (Convertlets ν) := ⟨empty⟩

/-- Adds a convertlet, which must bridge a new pair of different conventions. -/
def add (convertlets : Convertlets ν) (c : Convertlet ν) :
    Except ConfigurationError (Convertlets ν) :=
  if c.source = c.target then .error (.identityConvertlet c.source)
  else
    match hnew : convertlets.byPair.contains c.pair with
    | true => .error (.duplicateConvertlet c.source c.target)
    | false => .ok
        { entries := convertlets.entries ++ [c]
          byPair := convertlets.byPair.insert c.pair convertlets.entries.length
          indexed := get?_insert_length_iff convertlets.indexed hnew }

/-- The convertlet that bridges a pair. -/
def lookup? (convertlets : Convertlets ν) (source target : Convention) : Option (Convertlet ν) :=
  (convertlets.byPair.get? (source, target)).bind fun i => convertlets.entries[i]?

/-- The pairs that are bridged, in registration order. -/
def pairs (convertlets : Convertlets ν) : List (Convention × Convention) :=
  convertlets.entries.map Convertlet.pair

section Lookup

variable {convertlets : Convertlets ν} {source target : Convention} {c : Convertlet ν}

/-- What bridges a pair is the entry for it. -/
theorem lookup?_eq_some_iff : convertlets.lookup? source target = some c ↔
    c ∈ convertlets.entries ∧ c.source = source ∧ c.target = target := by
  unfold lookup?
  rw [Option.bind_eq_some_iff]
  constructor
  · rintro ⟨i, hindex, hentry⟩
    rw [convertlets.indexed, hentry] at hindex
    obtain ⟨hsource, htarget⟩ := Prod.mk.inj (Option.some.inj hindex)
    exact ⟨List.mem_of_getElem? hentry, hsource, htarget⟩
  · rintro ⟨hmem, rfl, rfl⟩
    obtain ⟨i, hentry⟩ := List.mem_iff_getElem?.mp hmem
    refine ⟨i, (convertlets.indexed _ _).mpr ?_, hentry⟩
    rw [hentry]
    rfl

/-- A pair is bridged if there is an entry for it. -/
theorem isSome_lookup?_iff :
    (convertlets.lookup? source target).isSome ↔ (source, target) ∈ convertlets.pairs := by
  unfold pairs
  rw [Option.isSome_iff_exists, List.mem_map]
  constructor
  · rintro ⟨c, hc⟩
    obtain ⟨hmem, rfl, rfl⟩ := lookup?_eq_some_iff.mp hc
    exact ⟨c, hmem, rfl⟩
  · rintro ⟨c, hmem, hpair⟩
    obtain ⟨hsource, htarget⟩ := Prod.mk.inj hpair
    exact ⟨c, lookup?_eq_some_iff.mpr ⟨hmem, hsource, htarget⟩⟩

end Lookup

end Convertlets

end QueryPlanner
