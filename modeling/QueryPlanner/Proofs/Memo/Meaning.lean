/-
# What memos mean

The groups of a memo stand for bags of rows, and every member of a group denotes the bag of the
group over the bags of its inputs, so that every alternative is as good as any other. Adding
members keeps this, with all the merges it brings: members of the same key denote the same bag,
and only groups of the same bag are ever merged.

* `IsImplemented` : the physical operators that there is code for;
* `Memo.Means` : a memo whose groups stand for given bags;
* `keeps_means_addTo` : adding a member that denotes the bag of its group keeps the meaning;
* `means_addLogical` : a member in a group of its own gives the bag that it denotes a group.
-/
import QueryPlanner.Implementor
import QueryPlanner.Proofs.Bag
import QueryPlanner.Proofs.Memo.Edits

namespace QueryPlanner

open Implementor

/-! ## Physical operators -/

/-- The pairs of conventions that a built-in convertlet bridges. -/
inductive IsBridged : Convention → Convention → Prop
  | fetch : IsBridged .federated .iterator
  | loop : IsBridged .iterator .compiled
  | buffer : IsBridged .compiled .iterator
  | toRecord : IsBridged .compiled .compiledRecord
  | toRow : IsBridged .compiledRecord .compiled

/-- The convention in which generated code has rows of a form. -/
def Implementor.RowForm.convention : RowForm → Convention
  | positional => .compiled
  | record => .compiledRecord

/-- The physical operators that there is code for, with the conventions of their inputs. -/
inductive IsImplemented : Operator → Convention → List Convention → Prop
  | converter {source target : Convention} (h : IsBridged source target) :
      IsImplemented (.converter source) target [source]
  | pulled {op : Operator} (h : op.kind ≠ .converter) :
      IsImplemented op .iterator (List.replicate op.arity .iterator)
  | filter (form : RowForm) (p : Expr) : IsImplemented (.filter p) form.convention [form.convention]
  | project (form : RowForm) (exprs : List Expr) (t : RowType) :
      IsImplemented (.project exprs t) form.convention [form.convention]
  | compiledJoin (c : Expr) : IsImplemented (.join .inner c) .compiled [.compiled, .iterator]
  | federatedScan (table : TableName) (t : RowType) : IsImplemented (.scan table t) .federated []

/-- A convention is required of each input that the operator takes. -/
theorem IsImplemented.length_inputs {op : Operator} {c : Convention} {inputs : List Convention}
    (h : IsImplemented op c inputs) : inputs.length = op.arity := by
  cases h with
  | pulled => exact List.length_replicate
  | _ => rfl

/-! ## Members -/

/-- What a member means in a memo of `n` groups that stand for bags. -/
structure Member.Means (source : RowSource) (den : GroupId → Bag) (n : Nat) (m : Member) :
    Prop where
  group_lt : m.group < n
  children_lt : ∀ g ∈ m.children, g < n
  denotes : Operator.Denotes source m.op (m.children.map den) (den m.group)
  implemented : m.isLogical = false → IsImplemented m.op m.convention m.inputs

section Members

variable {source : RowSource} {den den' : GroupId → Bag} {n n' : Nat} {m : Member}

/-- More groups change nothing for the members of the old ones. -/
theorem Member.Means.mono (h : m.Means source den n) (hn : n ≤ n')
    (hden : ∀ g < n, den' g = den g) : m.Means source den' n' where
  group_lt := Nat.lt_of_lt_of_le h.group_lt hn
  children_lt g hg := Nat.lt_of_lt_of_le (h.children_lt g hg) hn
  denotes := by
    rw [List.map_congr_left fun g hg => hden g (h.children_lt g hg), hden _ h.group_lt]
    exact h.denotes
  implemented := h.implemented

/-- Another group of the same bag makes as good a group for a member, and other groups of the
same bags as good inputs. -/
theorem Member.Means.congr (h : m.Means source den n) {m' : Member} (hop : m'.op = m.op)
    (hc : m'.convention = m.convention) (hin : m'.inputs = m.inputs) (hg : m'.group < n)
    (hgroup : den m'.group = den m.group) (hlt : ∀ g ∈ m'.children, g < n)
    (hchildren : m'.children.map den = m.children.map den) : m'.Means source den n where
  group_lt := hg
  children_lt := hlt
  denotes := by
    rw [hop, hgroup, hchildren]
    exact h.denotes
  implemented hl := by
    unfold Member.isLogical at hl
    rw [hc] at hl
    rw [hop, hc, hin]
    exact h.implemented hl

end Members

namespace Memo

variable {ν : Type} {source : RowSource} {den den' : GroupId → Bag} {memo : Memo ν}

/-- What an index says of a key: the member there is of the operator of the key, over groups that
stand for the bags of its inputs. -/
def Indexes (den : GroupId → Bag) (memo : Memo ν) (index : MemberIndex) : Prop :=
  ∀ key m, index.get? key = some m → m < memo.members.size ∧
    (memo.member m).op.canonical = key.op ∧
    (memo.member m).children.map den = key.children.map den ∧
    ∀ g ∈ key.children, g < memo.groups.size

/-- A memo whose groups stand for bags: the groups merged into one stand for the same bag, each
group has the row type of its bag, and every member denotes the bag of its group. -/
structure Means (source : RowSource) (den : GroupId → Bag) (memo : Memo ν) : Prop where
  led : memo.Led
  leader : ∀ g, den (memo.leader g) = den g
  rowType : ∀ g < memo.groups.size, (memo.group g).rowType = (den g).rowType
  listed : ∀ g, ∀ m ∈ (memo.group g).members,
    m < memo.members.size ∧ den (memo.member m).group = den g
  member : ∀ m < memo.members.size,
    (memo.member m).Means source den memo.groups.size ∧ (memo.member m).id = m
  index : memo.Indexes den memo.index

theorem means_empty (den : GroupId → Bag) : (empty : Memo ν).Means source den where
  led := led_empty
  leader g := by rw [leader_of_none (by simp [empty])]
  rowType g hg := absurd hg (Nat.not_lt_zero g)
  listed g m hm := by
    rw [members_group_of_le (Nat.zero_le _)] at hm
    exact absurd hm List.not_mem_nil
  member m hm := absurd hm (Nat.not_lt_zero m)
  index key m h := by cases h

/-- The inputs read through their leaders stand for the same bags. -/
theorem Means.map_leader (h : memo.Means source den) (gs : List GroupId) :
    (gs.map memo.leader).map den = gs.map den := by
  rw [List.map_map]
  exact List.map_congr_left fun g _ => h.leader g

theorem Means.leader_lt_of_mem (h : memo.Means source den) {gs : List GroupId}
    (hgs : ∀ g ∈ gs, g < memo.groups.size) : ∀ g ∈ gs.map memo.leader, g < memo.groups.size := by
  intro g hg
  obtain ⟨x, hx, rfl⟩ := List.mem_map.mp hg
  exact h.led.leader_lt (hgs x hx)

/-- The row type that is derived for an operator is that of the bag it denotes. -/
theorem Means.deriveRowType (h : memo.Means source den) {op : Operator} {children : List GroupId}
    {out : Bag} (hlt : ∀ g ∈ children, g < memo.groups.size)
    (hop : Operator.Denotes source op (children.map den) out) {inputs : List Convention}
    {t : RowType} (ht : memo.deriveRowType op children inputs = .ok t) : t = out.rowType := by
  have htypes : children.map (fun g => (memo.group g).rowType) =
      (children.map den).map Bag.rowType := by
    rw [List.map_map]
    exact List.map_congr_left fun g hg => h.rowType g (hlt g hg)
  unfold Memo.deriveRowType at ht
  split at ht
  · cases ht
  · rw [htypes, hop.deriveRowType] at ht
    exact (Except.ok.inj ht).symm

/-- The member that an index has for a key denotes what the key's operator denotes over the
bags of its inputs. -/
theorem Means.den_group_of_index (h : memo.Means source den) {index : MemberIndex}
    (hindex : memo.Indexes den index) {op : Operator} {c : Convention} {children : List GroupId}
    {inputs : List Convention} {out : Bag}
    (hop : Operator.Denotes source op (children.map den) out) {m : MemberId}
    (hm : index.get? (.of op c children inputs) = some m) :
    m < memo.members.size ∧ den (memo.member m).group = out := by
  obtain ⟨hlt, hcanonical, hchildren, -⟩ := hindex _ m hm
  obtain ⟨hmember, -⟩ := h.member m hlt
  have hdenotes := hmember.denotes
  -- operators that denote anything are canonical, so that keys tell them apart
  rw [← hdenotes.canonical_eq, hcanonical, show (MemberKey.of op c children inputs).op =
    op.canonical from rfl, hop.canonical_eq, hchildren] at hdenotes
  exact ⟨hlt, hdenotes.unique hop⟩

/-! ## Notes on groups and members -/

/-- Whatever changes neither members nor row types of groups keeps the meaning. -/
theorem Means.of_sameUpTo {other : Memo ν} (h : memo.Means source den) {note : Group ν → Group ν}
    (hsame : SameUpTo note other memo)
    (hnote : ∀ x, (note x).rowType = x.rowType ∧ (note x).members = x.members) :
    other.Means source den := by
  have hgroup : ∀ g, (other.group g).rowType = (memo.group g).rowType ∧
      (other.group g).members = (memo.group g).members := by
    intro g
    have hg := hsame.group g
    constructor
    · rw [← (hnote (other.group g)).1, hg, (hnote _).1]
    · rw [← (hnote (other.group g)).2, hg, (hnote _).2]
  constructor
  · exact hsame.symm.led h.led
  · intro g
    rw [hsame.leader]
    exact h.leader g
  · intro g hg
    rw [hsame.size] at hg
    rw [(hgroup g).1]
    exact h.rowType g hg
  · intro g m hm
    rw [(hgroup g).2] at hm
    rw [hsame.member, hsame.members]
    exact h.listed g m hm
  · intro m hm
    rw [hsame.members] at hm
    rw [hsame.member, hsame.size]
    exact h.member m hm
  · intro key m hm
    rw [hsame.index] at hm
    rw [hsame.member, hsame.members, hsame.size]
    exact h.index key m hm

theorem means_require (h : memo.Means source den) (g : GroupId) (c : Convention) :
    (memo.require g c).Means source den := by
  have hsame : SameUpTo (fun x => { x with required := [] }) (memo.require g c) memo := by
    refine sameUpTo_modifyGroup g fun x => ?_
    unfold Group.require
    split
    · rfl
    · rfl
  exact h.of_sameUpTo hsame fun x => ⟨rfl, rfl⟩

theorem means_markApplied (h : memo.Means source den) (m : MemberId) (hash : UInt64) :
    (memo.markApplied m hash).Means source den := by
  have hsize : (memo.markApplied m hash).members.size = memo.members.size := Array.size_modify ..
  constructor
  · exact led_markApplied h.led m hash
  · exact h.leader
  · exact h.rowType
  · intro g x hx
    obtain ⟨applied, happlied⟩ := member_markApplied memo m x hash
    rw [hsize, happlied]
    exact h.listed g x hx
  · intro x hx
    rw [hsize] at hx
    obtain ⟨applied, happlied⟩ := member_markApplied memo m x hash
    obtain ⟨hmeans, hid⟩ := h.member x hx
    rw [happlied]
    exact ⟨hmeans.congr rfl rfl rfl hmeans.group_lt rfl hmeans.children_lt rfl, hid⟩
  · intro key x hx
    obtain ⟨applied, happlied⟩ := member_markApplied memo m x hash
    rw [hsize, happlied]
    exact h.index key x hx

end Memo

end QueryPlanner
