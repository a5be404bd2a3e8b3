/-
Tables: lists of keys with their values, in the order in which the keys came.

The value of a key is that of its first entry, as `List.lookup` answers it.
Setting a key changes its first entry in place or appends a new one, so a table
built by setting holds every key once.

* `lookup_setEntry` — what a table answers after a key was set;
* `map_fst_setEntry_of_mem` — setting a key that is there moves nothing.
-/

namespace LoopLanes

variable {α β : Type}

/-- Sets the value of a key. -/
def setEntry [BEq α] (a : α) (b : β) : List (α × β) → List (α × β)
  | [] => [(a, b)]
  | e :: es => if e.1 == a then (e.1, b) :: es else e :: setEntry a b es

variable [BEq α] [LawfulBEq α]

theorem lookup_setEntry_self (a : α) (b : β) (es : List (α × β)) :
    (setEntry a b es).lookup a = some b := by
  induction es with
  | nil => simp [setEntry]
  | cons e es ih =>
    obtain ⟨k, v⟩ := e
    by_cases h : k = a
    · simp [setEntry, h]
    · have h' : (a == k) = false := beq_false_of_ne fun e => h e.symm
      simp [setEntry, h, h', List.lookup_cons, ih]

theorem lookup_setEntry_of_ne {a c : α} (b : β) (es : List (α × β)) (h : c ≠ a) :
    (setEntry a b es).lookup c = es.lookup c := by
  induction es with
  | nil => simp [setEntry, h]
  | cons e es ih =>
    obtain ⟨k, v⟩ := e
    by_cases hk : k = a
    · have hc : (c == k) = false := beq_false_of_ne (hk ▸ h)
      simp [setEntry, hk, List.lookup_cons, beq_false_of_ne h]
    · simp only [setEntry, beq_iff_eq, hk, if_false, List.lookup_cons, ih]

/-- A table answers the new value for the key that was set, and what it did
before for every other key. -/
theorem lookup_setEntry [DecidableEq α] (a c : α) (b : β) (es : List (α × β)) :
    (setEntry a b es).lookup c = if c = a then some b else es.lookup c := by
  split
  · subst c
    exact lookup_setEntry_self a b es
  · next h => exact lookup_setEntry_of_ne b es h

theorem map_fst_setEntry_of_mem (a : α) (b : β) (es : List (α × β)) (h : a ∈ es.map (·.1)) :
    (setEntry a b es).map (·.1) = es.map (·.1) := by
  induction es with
  | nil => simp at h
  | cons e es ih =>
    obtain ⟨k, v⟩ := e
    by_cases hk : k = a
    · simp [setEntry, hk]
    · have : a ∈ es.map (·.1) := by
        rcases List.mem_cons.mp h with h | h
        · exact absurd h.symm hk
        · exact h
      simp [setEntry, hk, ih this]

end LoopLanes
