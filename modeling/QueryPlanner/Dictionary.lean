/-
# Dictionaries

A dictionary holds one value for each of its keys, as a list of pairs. A planner
keeps a handful of columns, tables or conventions at a time, so a list is both
small enough to search and plain enough to compute with.

* `get?_insert` : reading after writing gives what was written, and leaves every
  other key alone.
-/

namespace QueryPlanner

/-- Pairs of a key and its value, each key once when built by `insert`. -/
abbrev Dictionary (κ α : Type) : Type := List (κ × α)

namespace Dictionary

variable {κ α β : Type} [DecidableEq κ]

/-- The value of `key`. -/
def get? : Dictionary κ α → κ → Option α
  | [], _ => none
  | (k, a) :: rest, key => if k = key then some a else get? rest key

/-- Gives `key` the value `a`, in place if it has one already. -/
def insert : Dictionary κ α → κ → α → Dictionary κ α
  | [], key, a => [(key, a)]
  | (k, b) :: rest, key, a => if k = key then (k, a) :: rest else (k, b) :: insert rest key a

/-- Whether `key` has a value. -/
def contains (d : Dictionary κ α) (key : κ) : Bool := (d.get? key).isSome

/-- Applies `f` to every value. -/
def mapValues (f : α → β) (d : Dictionary κ α) : Dictionary κ β :=
  d.map fun (k, a) => (k, f a)

/-- Writes the pairs of `other` over those of `d`, in order. -/
def override (d other : Dictionary κ α) : Dictionary κ α :=
  other.foldl (fun acc (k, a) => acc.insert k a) d

/-! ## Reading after writing -/

/-- Writing changes what is read at its own key and nothing else. -/
theorem get?_insert (d : Dictionary κ α) (key other : κ) (a : α) :
    (d.insert key a).get? other = if key = other then some a else d.get? other := by
  induction d with
  | nil => simp [insert, get?]
  | cons p rest ih =>
      obtain ⟨k, b⟩ := p
      by_cases hk : k = key
      · subst hk
        by_cases ho : k = other <;> simp [insert, get?, ho]
      · by_cases ho : k = other
        · subst ho
          simp [insert, get?, hk, Ne.symm hk]
        · simp [insert, get?, hk, ho, ih]

/-- Reading after a change of all values changes the value read. -/
theorem get?_mapValues (f : α → β) (d : Dictionary κ α) (key : κ) :
    get? (mapValues f d) key = (get? d key).map f := by
  induction d with
  | nil => rfl
  | cons p rest ih =>
      obtain ⟨k, b⟩ := p
      by_cases hk : k = key
      · simp [mapValues, get?, hk]
      · simpa [mapValues, get?, hk] using ih

/-- After a write the key has a value, and every other key has one if it had. -/
theorem contains_insert (d : Dictionary κ α) (key other : κ) (a : α) :
    (d.insert key a).contains other = (decide (key = other) || d.contains other) := by
  unfold contains
  rw [get?_insert]
  by_cases h : key = other <;> simp [h]

/-! ## All values -/

/-- What is read in a dictionary is one of its pairs. -/
theorem mem_of_get?_eq_some {d : Dictionary κ α} {key : κ} {a : α} (h : d.get? key = some a) :
    (key, a) ∈ d := by
  induction d with
  | nil => cases h
  | cons p rest ih =>
      obtain ⟨k, b⟩ := p
      unfold get? at h
      by_cases hk : k = key
      · rw [if_pos hk] at h
        cases h
        rw [hk]
        exact List.mem_cons_self
      · rw [if_neg hk] at h
        exact List.mem_cons_of_mem _ (ih h)

section All

variable {P : α → Prop} {d : Dictionary κ α}

/-- What holds of all values and of the one that is written holds of all values afterwards. -/
theorem forall_mem_insert (h : ∀ p ∈ d, P p.2) {key : κ} {a : α} (ha : P a) :
    ∀ p ∈ d.insert key a, P p.2 := by
  induction d with
  | nil => exact List.forall_mem_singleton.mpr ha
  | cons p rest ih =>
      obtain ⟨k, b⟩ := p
      obtain ⟨hb, hrest⟩ := List.forall_mem_cons.mp h
      unfold insert
      split
      · exact List.forall_mem_cons.mpr ⟨ha, hrest⟩
      · exact List.forall_mem_cons.mpr ⟨hb, ih hrest⟩

theorem forall_mem_override {other : Dictionary κ α} (h : ∀ p ∈ d, P p.2)
    (hother : ∀ p ∈ other, P p.2) : ∀ p ∈ d.override other, P p.2 := by
  unfold override
  induction other generalizing d with
  | nil => exact h
  | cons p rest ih =>
      obtain ⟨hp, hrest⟩ := List.forall_mem_cons.mp hother
      exact ih (forall_mem_insert h hp) hrest

omit [DecidableEq κ] in
theorem forall_mem_mapValues {Q : β → Prop} {f : α → β} (h : ∀ p ∈ d, P p.2)
    (hf : ∀ a, P a → Q (f a)) : ∀ p ∈ mapValues f d, Q p.2 := by
  intro p hp
  obtain ⟨q, hq, rfl⟩ := List.mem_map.mp hp
  exact hf q.2 (h q hq)

end All

end Dictionary

end QueryPlanner
