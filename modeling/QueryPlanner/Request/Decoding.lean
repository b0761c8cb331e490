/-
# Decoding requests

A record of a request is an object with a member for each field, or an array with the
fields in order. Members that are no field are ignored, a field given twice is refused,
and some fields have a value when they are left out. A variant is a record with one
more field in front, its tag.

A plan is read as a whole, so everything in it has to be readable, whether it is asked
for or not. Around the plan, what nobody asks for may be anything.
-/
import QueryPlanner.Json.Reader
import QueryPlanner.Request

namespace QueryPlanner

namespace Request

/-! ## Records -/

/-- The fields of a record, in order, as far as they are given. -/
structure Slots where
  /-- Whether the record was an array. -/
  positional : Bool
  values : List (Option Json)

/-- A member of an object that is given at most once. -/
def single (members : List (String × Json)) (name : String) : Option (Option Json) :=
  match Json.membersOf members name with
  | [] => some none
  | [v] => some (some v)
  | _ => none

/-- The fields of a record with the given names. -/
def slots (names : List String) : Json → Option Slots
  | .object members => (names.mapM (single members)).map (⟨false, ·⟩)
  | .array items =>
      if items.length ≤ names.length then
        some ⟨true, items.map some ++ List.replicate (names.length - items.length) none⟩
      else none
  | _ => none

/-- A field that has to be given. -/
def required {α : Type} (decode : Json → Option α) (slot : Option Json) : Option α :=
  slot.bind decode

/-- A field with a value of its own when it is left out. -/
def defaulting {α : Type} (value : α) (decode : Json → Option α) : Option Json → Option α
  | none => some value
  | some j => decode j

/-- A field that may be null, and may be left out of an object but not of an array. -/
def nullable {α : Type} (positional : Bool) (decode : Json → Option α) :
    Option Json → Option (Option α)
  | none => if positional then none else some none
  | some .null => some none
  | some j => (decode j).map some

/-- The number of the variant that a tag stands for, and the rest of the record. Inside
of a plan, a tag may also be that number itself. -/
def tagged (tag : String) (variants : List String) (inside : Bool) : Json → Option (Nat × Json)
  | .object members => do
      let t ← (← single members tag)
      pure (← variant t, .object (members.filter fun (k, _) => k != tag))
  | .array (t :: rest) => do pure (← variant t, .array rest)
  | _ => none
where
  /-- The number of a variant. -/
  variant : Json → Option Nat
    | .text s => variants.findIdx? (· == s)
    | .int n => if inside ∧ 0 ≤ n ∧ n < variants.length then some n.toNat else none
    | _ => none

/-! ## Simple values -/

/-- A text. -/
def text : Json → Option String
  | .text s => some s
  | _ => none

/-- A truth value. -/
def bool : Json → Option Bool
  | .bool b => some b
  | _ => none

/-- An integer from zero up to a bound. -/
def natBelow (bound : Nat) : Json → Option Nat
  | .int n => if 0 ≤ n ∧ n < bound then some n.toNat else none
  | _ => none

/-- A number. -/
def number : Json → Option Float
  | .int n => some (Float.ofInt n)
  | .float x => some x
  | _ => none

/-- The items of an array. -/
def list {α : Type} (decode : Json → Option α) : Json → Option (List α)
  | .array items => items.mapM decode
  | _ => none

/-- A constant, or an object whose only member has the constant's name and is null; inside
of a plan an empty object will do for null. -/
def constant (inside : Bool) : Json → Option String
  | .text s => some s
  | .object [(s, .null)] => some s
  | .object [(s, .object [])] => if inside then some s else none
  | _ => none

/-- A data type. -/
def dataType (inside : Bool) (j : Json) : Option DataType := do
  DataType.ofName? (← constant inside j)

/-- A join type. -/
def joinType (j : Json) : Option JoinType := do
  let name ← constant true j
  if name = "Inner" then some .inner else if name = "Left" then some .left else none

/-- Any value; the last of several members with one key counts. -/
def anything (j : Json) : Option Json := some j.settle

/-- A column; it may miss values unless stated otherwise. -/
def column (inside : Bool) (j : Json) : Option Field := do
  match ← slots ["name", "type", "nullable"] j with
  | ⟨_, [name, type, nullable]⟩ =>
      pure ⟨← required text name, ← required (dataType inside) type, ← defaulting true bool nullable⟩
  | _ => none

/-! ## Expressions and relations -/

/-- The tags of expressions. -/
def termTags : List String := ["column", "literal", "binary", "unary", "call", "and", "or"]

/-- An expression, nested less deeply than the fuel. -/
def term : Nat → Json → Option Term
  | 0, _ => none
  | fuel + 1, j => do
      let (variant, rest) ← tagged "kind" termTags true j
      let fields (names : List String) := (slots names rest).map Slots.values
      match termTags[variant]? with
      | some "column" => match ← fields ["index"] with
        | [index] => pure (.column (← required (natBelow (2 ^ 32)) index))
        | _ => none
      | some "literal" => match ← fields ["value"] with
        | [value] => pure (.literal (← required anything value))
        | _ => none
      | some "binary" => match ← fields ["op", "left", "right"] with
        | [op, left, right] =>
            pure (.binary (← required text op) (← required (term fuel) left)
              (← required (term fuel) right))
        | _ => none
      | some "unary" => match ← fields ["op", "operand"] with
        | [op, operand] => pure (.unary (← required text op) (← required (term fuel) operand))
        | _ => none
      | some "call" => match ← fields ["name", "args"] with
        | [name, args] =>
            pure (.call (← required text name) (← required (list (term fuel)) args))
        | _ => none
      | some "and" => match ← fields ["args"] with
        | [args] => pure (.and (← required (list (term fuel)) args))
        | _ => none
      | _ => match ← fields ["args"] with
        | [args] => pure (.or (← required (list (term fuel)) args))
        | _ => none

/-- A column that a projection computes. -/
def namedTerm (fuel : Nat) (j : Json) : Option NamedTerm := do
  match ← slots ["name", "type", "expr"] j with
  | ⟨_, [name, type, expr]⟩ =>
      pure ⟨← required text name, ← required (dataType true) type, ← required (term fuel) expr⟩
  | _ => none

/-- A sort key; ascending, and missing values last, unless stated otherwise. -/
def sortTerm (fuel : Nat) (j : Json) : Option SortTerm := do
  match ← slots ["expr", "ascending", "nullsFirst"] j with
  | ⟨_, [expr, ascending, nullsFirst]⟩ =>
      pure ⟨← required (term fuel) expr, ← defaulting true bool ascending,
        ← defaulting false bool nullsFirst⟩
  | _ => none

/-- The tags of relations. -/
def relationTags : List String := ["values", "scan", "filter", "project", "join", "sort", "limit"]

/-- A relation, nested less deeply than the fuel. -/
def relation : Nat → Bool → Json → Option Relation
  | 0, _, _ => none
  | fuel + 1, inside, j => do
      let (variant, rest) ← tagged "op" relationTags inside j
      let fields (names : List String) := (slots names rest).map Slots.values
      let input := required (relation fuel true)
      match relationTags[variant]? with
      | some "values" => match ← fields ["columns", "rows"] with
        | [columns, rows] =>
            pure (.values (← required (list (column true)) columns)
              (← required (list (list anything)) rows))
        | _ => none
      | some "scan" => match ← fields ["schema", "table"] with
        | [schema, table] => pure (.scan (← required text schema) (← required text table))
        | _ => none
      | some "filter" => match ← fields ["predicate", "input"] with
        | [predicate, below] => pure (.filter (← required (term fuel) predicate) (← input below))
        | _ => none
      | some "project" => match ← fields ["exprs", "input"] with
        | [exprs, below] =>
            pure (.project (← required (list (namedTerm fuel)) exprs) (← input below))
        | _ => none
      | some "join" => match ← fields ["joinType", "condition", "left", "right"] with
        | [type, condition, left, right] =>
            pure (.join (← defaulting .inner joinType type) (← required (term fuel) condition)
              (← input left) (← input right))
        | _ => none
      | some "sort" => match ← fields ["keys", "input"] with
        | [keys, below] => pure (.sort (← required (list (sortTerm fuel)) keys) (← input below))
        | _ => none
      | _ => match ← fields ["offset", "count", "input"] with
        | [offset, count, below] =>
            pure (.limit (← defaulting 0 (natBelow (2 ^ 64)) offset)
              (← required (natBelow (2 ^ 64)) count) (← input below))
        | _ => none

/-! ## Requests -/

/-- The fields of a table. -/
def tableFields : List String := ["schema", "name", "columns", "rowCount", "federated", "rows"]

/-- A table. -/
def table (j : Json) : Option Table := do
  match ← slots tableFields j with
  | ⟨positional, [schema, name, columns, rowCount, federated, rows]⟩ =>
      pure {
        schema := ← required text schema
        name := ← required text name
        columns := ← required (list (column false)) columns
        rowCount := ← nullable positional number rowCount
        federated := ← defaulting false bool federated
        rows := ← defaulting [] (list (list anything)) rows }
  | _ => none

/-- The fields of a request. -/
def requestFields : List String := ["plan", "convention", "costCeiling", "tables"]

mutual

/-- How deep a value is nested. -/
def depth : Json → Nat
  | .array items => depthOfItems items + 1
  | .object members => depthOfMembers members + 1
  | _ => 0

/-- How deep the deepest item is nested. -/
def depthOfItems : List Json → Nat
  | [] => 0
  | item :: rest => Nat.max (depth item) (depthOfItems rest)

/-- How deep the deepest member is nested. -/
def depthOfMembers : List (String × Json) → Nat
  | [] => 0
  | (_, v) :: rest => Nat.max (depth v) (depthOfMembers rest)

end

/-- A request. -/
def decode (j : Json) : Option Request := do
  match ← slots requestFields j with
  | ⟨positional, [plan, convention, ceiling, tables]⟩ =>
      pure {
        plan := ← required (relation (depth j + 1) false) plan
        convention := ← defaulting "ITERATOR" text convention
        ceiling := ← nullable positional number ceiling
        tables := ← defaulting [] (list table) tables }
  | _ => none

/-! ## Requests as text -/

/-- The members of an object with the given names, changed by `f`. -/
def asked (names : List String) (f : String → Json → Json) : Json → Json
  | .object members =>
      .object ((members.filter fun (k, _) => names.contains k).map fun (k, v) => (k, f k v))
  | .array items => .array (items.zipIdx.map fun (v, i) => f (names.getD i "") v)
  | other => other

/-- Applies `f` to every item of an array. -/
def eachItem (f : Json → Json) : Json → Json
  | .array items => .array (items.map f)
  | other => other

/-- A request without the members that nobody asks for, outside of the plan. -/
def relevant : Json → Json :=
  asked requestFields fun k v =>
    if k = "tables" then
      eachItem (asked tableFields fun k v =>
        if k = "columns" then eachItem (asked ["name", "type", "nullable"] fun _ v => v) v else v) v
    else v

/-- How deep a request given as text may be nested. -/
def depthLimit : Nat := 127

/-- Reads a request from text. -/
def read? (s : String) : Option Request := do
  let j := relevant (← Json.parse? s)
  if j.within depthLimit then decode j else none

end Request

end QueryPlanner
