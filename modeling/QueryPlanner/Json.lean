/-
# JSON values

A JSON value keeps the difference between a number written as an integer and one
written with a fraction or an exponent, and keeps repeated members of an object in
the order they were written.

A text can be well formed and still name no value: a number beyond the range of a
float, or a string with half of a surrogate pair. The reader leaves `unreadable` in
its place, so that a part nobody asks for does no harm.
-/

namespace QueryPlanner

/-- A JSON value. -/
inductive Json where
  | null
  | bool (value : Bool)
  /-- A number written as an integer of at most 64 bits. -/
  | int (value : Int)
  /-- Any other number. -/
  | float (value : Float)
  | text (value : String)
  | array (items : List Json)
  | object (members : List (String × Json))
  /-- Stands for well-formed text that names no value. -/
  | unreadable
  deriving Inhabited

namespace Json

/-- The members of an object called `key`, in the order they were written. -/
def membersOf (members : List (String × Json)) (key : String) : List Json :=
  members.filterMap fun (k, v) => if k = key then some v else none

/-- The last member of an object called `key`. -/
def get? : Json → String → Option Json
  | object members, key => (membersOf members key).getLast?
  | _, _ => none

mutual

/-- Whether a value is readable throughout and nested at most `depth` deep. -/
def within : Nat → Json → Bool
  | _, unreadable => false
  | 0, array _ => false
  | 0, object _ => false
  | depth + 1, array items => withinItems depth items
  | depth + 1, object members => withinMembers depth members
  | _, _ => true

/-- `within` for every item. -/
def withinItems : Nat → List Json → Bool
  | _, [] => true
  | depth, item :: rest => within depth item && withinItems depth rest

/-- `within` for every member. -/
def withinMembers : Nat → List (String × Json) → Bool
  | _, [] => true
  | depth, (_, value) :: rest => within depth value && withinMembers depth rest

end

/-- Drops every member whose key occurs again later. -/
def keepLast : List (String × Json) → List (String × Json)
  | [] => []
  | (k, v) :: rest => if rest.any (fun (k', _) => k' == k) then keepLast rest else (k, v) :: keepLast rest

mutual

/-- The value in which the last of several members with one key replaces the others. -/
def settle : Json → Json
  | array items => array (settleItems items)
  | object members => object (keepLast (settleMembers members))
  | other => other

/-- `settle` for every item. -/
def settleItems : List Json → List Json
  | [] => []
  | item :: rest => settle item :: settleItems rest

/-- `settle` for every member. -/
def settleMembers : List (String × Json) → List (String × Json)
  | [] => []
  | (k, v) :: rest => (k, settle v) :: settleMembers rest

end

end Json

end QueryPlanner
