/-!
# Association lists

A list of keys with values stands for a map in which the first entry of a key counts. Looking up is
a case distinction on the first entry, and leaving out one key changes nothing for the others.
-/

namespace MapChain.Association

variable {α β : Type} [BEq α] [LawfulBEq α] [DecidableEq α]

/-- Looking up compares with the first key and goes on with the rest. -/
theorem lookup_cons (key : α) (value : β) (entries : List (α × β)) (a : α) :
    ((key, value) :: entries).lookup a = if a = key then some value else entries.lookup a := by
  rw [List.lookup_cons]
  by_cases h : a = key
  · simp [h]
  · have hb : (a == key) = false := by simpa using h
    simp [h, hb]

/-- Leaving out the entries of one key leaves the others as they are. -/
theorem lookup_filter (entries : List (α × β)) (key a : α) :
    (entries.filter (·.1 != key)).lookup a = if a = key then none else entries.lookup a := by
  induction entries with
  | nil => simp
  | cons entry entries ih =>
    obtain ⟨k, v⟩ := entry
    by_cases hk : k = key
    · subst hk
      rw [List.filter_cons_of_neg (by simp), ih, lookup_cons]
      by_cases ha : a = k <;> simp [ha]
    · rw [List.filter_cons_of_pos (by simpa using hk), lookup_cons, lookup_cons, ih]
      by_cases ha : a = k
      · subst ha
        simp [hk]
      · simp [ha]

end MapChain.Association
