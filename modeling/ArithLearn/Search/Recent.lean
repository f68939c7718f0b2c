/-
A memory of bounded size that forgets what was not used for the longest time.
-/

namespace ArithLearn

/-- Entries from the most recently used to the least. -/
structure Recent (κ ν : Type) where
  capacity : Nat
  entries : List (κ × ν) := []

namespace Recent

variable {κ ν : Type} [DecidableEq κ]

/-- Room for `capacity` entries, and always for one. -/
def ofCapacity (capacity : Nat) : Recent κ ν := { capacity := max 1 capacity }

/-- What is remembered for a key. -/
def get? (m : Recent κ ν) (key : κ) : Option ν := (m.entries.find? fun e => e.1 = key).map (·.2)

/-- Makes the entry of a key, if there is one, the most recently used. -/
def touch (m : Recent κ ν) (key : κ) : Recent κ ν :=
  match m.entries.find? fun e => e.1 = key with
  | some e => { m with entries := e :: m.entries.filter fun e => e.1 ≠ key }
  | none => m

/-- Remembers a value as the most recently used, and forgets the least recently used one if there is
no room for both. -/
def insert (m : Recent κ ν) (key : κ) (value : ν) : Recent κ ν :=
  { m with entries := ((key, value) :: m.entries.filter fun e => e.1 ≠ key).take m.capacity }

variable {m : Recent κ ν} {key : κ} {value : ν} {e : κ × ν}

theorem mem_entries_of_get? (h : m.get? key = some value) : (key, value) ∈ m.entries := by
  obtain ⟨e, he, rfl⟩ := Option.map_eq_some_iff.1 h
  obtain rfl : e.1 = key := by simpa using List.find?_some he
  exact List.mem_of_find?_eq_some he

/-! ### Touching -/

@[simp]
theorem capacity_touch : (m.touch key).capacity = m.capacity := by
  unfold touch
  split <;> rfl

/-- To touch an entry brings nothing new. -/
theorem mem_entries_of_mem_touch (h : e ∈ (m.touch key).entries) : e ∈ m.entries := by
  unfold touch at h
  split at h
  · next e' he' =>
    rcases List.mem_cons.1 h with rfl | h
    · exact List.mem_of_find?_eq_some he'
    · exact (List.mem_filter.1 h).1
  · exact h

/-- An entry that is touched stays. -/
theorem mem_touch_of_get? (h : m.get? key = some value) : (key, value) ∈ (m.touch key).entries := by
  obtain ⟨e, he, rfl⟩ := Option.map_eq_some_iff.1 h
  obtain rfl : e.1 = key := by simpa using List.find?_some he
  unfold touch
  rw [he]
  exact List.mem_cons_self

/-! ### Insertion -/

@[simp]
theorem capacity_insert : (m.insert key value).capacity = m.capacity := rfl

/-- What is remembered after an insertion is the new entry or was remembered before. -/
theorem mem_entries_of_mem_insert (h : e ∈ (m.insert key value).entries) :
    e = (key, value) ∨ e ∈ m.entries := by
  rcases List.mem_cons.1 (List.mem_of_mem_take h) with h | h
  · exact .inl h
  · exact .inr (List.mem_filter.1 h).1

/-- Where there is any room, the new entry is there. -/
theorem mem_insert_self (h : 1 ≤ m.capacity) : (key, value) ∈ (m.insert key value).entries := by
  obtain ⟨n, hn⟩ : ∃ n, m.capacity = n + 1 := ⟨m.capacity - 1, by omega⟩
  rw [insert, hn, List.take_succ_cons]
  exact List.mem_cons_self

end Recent

end ArithLearn
