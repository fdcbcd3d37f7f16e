import Mathlib.Data.List.Induction
import Mathlib.Data.List.TakeWhile
import MapChain.Text.Lines

/-!
# Offsets at characters

A byte offset into a text stands between two characters when it is the number of bytes of a prefix.
Said of a prefix, each conversion has a plain answer: cutting gives back what was put together, the
line of an offset is the number of line feeds before it, and that line starts behind the last of
them. The conversion from UTF-16 units answers with such an offset and nothing else.

## Layers

- **Units**: `byteOffset?_eq_some_iff`, for the shortest prefix that has some number of units.
- **Cuts**: `slice?_append`.
- **Lines**: `lineColumn?_append`, `lineStart?_append` and `slice?_lineCut`.
-/

namespace MapChain

namespace Text

/-- No character has more units than bytes. -/
theorem utf16Width_le_utf8Size (c : Char) : utf16Width c ≤ c.utf8Size := by
  rw [utf16Width]
  split
  · exact c.utf8Size_pos
  · next hwide =>
    -- A character of two units is beyond all that take less than four bytes
    have hfour : ¬ c.val ≤ 0xffff := by
      rw [UInt32.le_iff_toNat_le]
      exact fun hle => hwide (Nat.lt_succ_of_le hle)
    rw [Char.utf8Size]
    split
    · next hle => exact absurd (UInt32.le_trans hle (by decide)) hfour
    · split
      · decide
      · split <;> decide

theorem utf16Length_le_utf8Length (text : List Char) : utf16Length text ≤ utf8Length text := by
  induction text with
  | nil => rfl
  | cons c text ih => exact Nat.add_le_add (utf16Width_le_utf8Size c) ih

theorem length_le_utf8Length (text : List Char) : text.length ≤ utf8Length text := by
  induction text with
  | nil => rfl
  | cons c text ih =>
    have hpos := c.utf8Size_pos
    rw [List.length_cons, utf8Length_cons]
    omega

/-! ## From units to bytes -/

/-- The shortest prefix of a text that has at least so many UTF-16 units. -/
structure IsReach (units : Nat) (before text : List Char) : Prop where
  isPrefix : before <+: text
  enough : units ≤ utf16Length before
  least : ∀ p, p <+: text → units ≤ utf16Length p → before <+: p

theorem IsReach.zero (text : List Char) : IsReach 0 [] text where
  isPrefix := List.nil_prefix
  enough := Nat.zero_le _
  least := fun _ _ _ => List.nil_prefix

theorem IsReach.cons {units : Nat} {c : Char} {before text : List Char}
    (h : IsReach (units + 1 - utf16Width c) before text) :
    IsReach (units + 1) (c :: before) (c :: text) where
  isPrefix := (List.prefix_cons_inj c).mpr h.isPrefix
  enough := by
    have henough := h.enough
    rw [utf16Length_cons]
    omega
  least := by
    intro p hp hunits
    cases p with
    | nil => exact absurd hunits (Nat.not_succ_le_zero units)
    | cons c' p =>
      obtain ⟨rfl, htail⟩ := List.cons_prefix_cons.mp hp
      rw [utf16Length_cons] at hunits
      exact (List.prefix_cons_inj c').mpr (h.least p htail (by omega))

theorem IsReach.unique {units : Nat} {before before' text : List Char}
    (h : IsReach units before text) (h' : IsReach units before' text) : before = before' := by
  have hle := h.least before' h'.isPrefix h'.enough
  have hge := h'.least before h.isPrefix h.enough
  exact hle.eq_of_length_le hge.length_le

theorem IsReach.le {units : Nat} {before text : List Char} (h : IsReach units before text) :
    units ≤ utf16Length text := by
  obtain ⟨after, rfl⟩ := h.isPrefix
  have henough := h.enough
  rw [utf16Length_append]
  omega

/-- Only the empty text has no units. -/
theorem eq_nil_of_utf16Length_eq_zero {text : List Char} (h : utf16Length text = 0) :
    text = [] := by
  cases text with
  | nil => rfl
  | cons c text =>
    have hpos := utf16Width_pos c
    rw [utf16Length_cons] at h
    omega

/-- A prefix is the shortest that has as many units as it has. -/
theorem IsReach.of_isPrefix {before text : List Char} (h : before <+: text) :
    IsReach (utf16Length before) before text where
  isPrefix := h
  enough := Nat.le_refl _
  least := by
    intro p hp hunits
    rcases List.prefix_or_prefix_of_prefix h hp with hle | ⟨rest, rfl⟩
    · exact hle
    · rw [utf16Length_append] at hunits
      have hzero : utf16Length rest = 0 := by omega
      obtain rfl := eq_nil_of_utf16Length_eq_zero hzero
      simp

/-- More units are not reached earlier. -/
theorem IsReach.mono {units units' : Nat} {before before' text : List Char} (hle : units ≤ units')
    (h : IsReach units before text) (h' : IsReach units' before' text) : before <+: before' :=
  h.least before' h'.isPrefix (hle.trans h'.enough)

theorem exists_reach {units : Nat} {text : List Char} (h : units ≤ utf16Length text) :
    ∃ before, IsReach units before text ∧ byteOffset? units text = some (utf8Length before) := by
  induction text generalizing units with
  | nil =>
    obtain rfl : units = 0 := Nat.le_zero.mp h
    exact ⟨[], .zero [], rfl⟩
  | cons c text ih =>
    cases units with
    | zero => exact ⟨[], .zero _, rfl⟩
    | succ units =>
      -- The first character belongs to the prefix, and the rest has to make up for what it leaves
      rw [utf16Length_cons] at h
      have htail : units + 1 - utf16Width c ≤ utf16Length text := by omega
      obtain ⟨before, hreach, hoffset⟩ := ih htail
      exact ⟨c :: before, hreach.cons, by rw [byteOffset?, hoffset]; rfl⟩

theorem byteOffset?_eq_none {units : Nat} {text : List Char} (h : utf16Length text < units) :
    byteOffset? units text = none := by
  induction text generalizing units with
  | nil =>
    obtain ⟨units, rfl⟩ := Nat.exists_eq_add_of_lt h
    rfl
  | cons c text ih =>
    rw [utf16Length_cons] at h
    obtain ⟨units, rfl⟩ := Nat.exists_eq_add_one_of_ne_zero (Nat.ne_zero_of_lt h)
    rw [byteOffset?, ih (by omega)]
    rfl

/-- Units are converted to the number of bytes of the shortest prefix that has them. -/
theorem byteOffset?_eq_some_iff {units offset : Nat} {text : List Char} :
    byteOffset? units text = some offset ↔
      ∃ before, IsReach units before text ∧ offset = utf8Length before := by
  constructor
  · intro h
    have hunits : units ≤ utf16Length text := by
      by_contra hlt
      rw [byteOffset?_eq_none (Nat.not_le.mp hlt)] at h
      cases h
    obtain ⟨before, hreach, hoffset⟩ := exists_reach hunits
    exact ⟨before, hreach, Option.some.inj (h.symm.trans hoffset)⟩
  · rintro ⟨before, hreach, rfl⟩
    obtain ⟨before', hreach', hoffset⟩ := exists_reach hreach.le
    rw [hoffset, hreach.unique hreach']

/-! ## Cutting at bytes -/

theorem dropBytes?_cons (n : Nat) (c : Char) (text : List Char) :
    dropBytes? (c.utf8Size + n) (c :: text) = dropBytes? n text := by
  -- A character takes a byte, so the offset is a successor
  obtain ⟨k, hk⟩ := Nat.exists_eq_add_one_of_ne_zero (Nat.ne_of_gt c.utf8Size_pos)
  have hsum : c.utf8Size + n = k + n + 1 := by omega
  rw [hsum, dropBytes?, ← hsum, if_pos (Nat.le_add_right _ _), Nat.add_sub_cancel_left]

theorem takeBytes?_cons (n : Nat) (c : Char) (text : List Char) :
    takeBytes? (c.utf8Size + n) (c :: text) = (takeBytes? n text).map (c :: ·) := by
  obtain ⟨k, hk⟩ := Nat.exists_eq_add_one_of_ne_zero (Nat.ne_of_gt c.utf8Size_pos)
  have hsum : c.utf8Size + n = k + n + 1 := by omega
  rw [hsum, takeBytes?, ← hsum, if_pos (Nat.le_add_right _ _), Nat.add_sub_cancel_left]

theorem dropBytes?_append (a b : List Char) : dropBytes? (utf8Length a) (a ++ b) = some b := by
  induction a with
  | nil => cases b <;> rfl
  | cons c a ih => rw [utf8Length_cons, List.cons_append, dropBytes?_cons, ih]

theorem takeBytes?_append (a b : List Char) : takeBytes? (utf8Length a) (a ++ b) = some a := by
  induction a with
  | nil => cases b <;> rfl
  | cons c a ih => rw [utf8Length_cons, List.cons_append, takeBytes?_cons, ih, Option.map_some]

theorem slice?_append (a b c : List Char) :
    slice? (utf8Length a) (utf8Length (a ++ b)) (a ++ b ++ c) = some b := by
  rw [slice?, utf8Length_append, if_pos (Nat.le_add_right _ _), Nat.add_sub_cancel_left,
    List.append_assoc, dropBytes?_append, Option.bind_some, takeBytes?_append]

end Text

/-! ## Lines -/

namespace LineIndex

open Text

theorem startsAfter_append (offset : Nat) (a b : List Char) :
    startsAfter offset (a ++ b) =
      startsAfter offset a ++ startsAfter (offset + utf8Length a) b := by
  induction a generalizing offset with
  | nil => rfl
  | cons c a ih =>
    rw [List.cons_append, startsAfter, startsAfter, ih, utf8Length_cons, Nat.add_assoc]
    split <;> rfl

theorem length_startsAfter (offset : Nat) (text : List Char) :
    (startsAfter offset text).length = text.count '\n' := by
  induction text generalizing offset with
  | nil => rfl
  | cons c text ih =>
    rw [startsAfter, List.count_cons]
    split
    next h => simp [ih, h]
    next h => simp [ih, h]

theorem lt_of_mem_startsAfter {offset n : Nat} {text : List Char}
    (h : n ∈ startsAfter offset text) : offset < n ∧ n ≤ offset + utf8Length text := by
  induction text generalizing offset with
  | nil => cases h
  | cons c text ih =>
    have hpos := c.utf8Size_pos
    rw [startsAfter] at h
    rw [utf8Length_cons]
    have hlater (h : n ∈ startsAfter (offset + c.utf8Size) text) :
        offset < n ∧ n ≤ offset + (c.utf8Size + utf8Length text) := by
      have := ih h
      omega
    split at h
    · rcases List.mem_cons.mp h with rfl | h
      · omega
      · exact hlater h
    · exact hlater h

/-- A text cut behind its last line feed. -/
structure IsLineCut (head last text : List Char) : Prop where
  eq : head ++ last = text
  ends : head = [] ∨ ∃ init, head = init ++ ['\n']
  rest : '\n' ∉ last

theorem exists_lineCut (text : List Char) : ∃ head last, IsLineCut head last text := by
  induction text using List.reverseRecOn with
  | nil => exact ⟨[], [], rfl, .inl rfl, List.not_mem_nil⟩
  | append_singleton text c ih =>
    by_cases hc : c = '\n'
    · -- A line feed at the end starts a last line that is empty
      subst hc
      exact ⟨text ++ ['\n'], [], List.append_nil _, .inr ⟨text, rfl⟩, List.not_mem_nil⟩
    · obtain ⟨head, last, rfl, hends, hrest⟩ := ih
      refine ⟨head, last ++ [c], (List.append_assoc _ _ _).symm, hends, ?_⟩
      simp [hrest, Ne.symm hc]

/-- The last line of a text starts behind its last line feed. -/
theorem getLast?_starts {head last text : List Char} (h : IsLineCut head last text) :
    (0 :: startsAfter 0 text).getLast? = some (utf8Length head) := by
  obtain ⟨rfl, hends, hrest⟩ := h
  -- No line starts within the last one
  have hnone : startsAfter (0 + utf8Length head) last = [] := by
    rw [← List.length_eq_zero_iff, length_startsAfter, List.count_eq_zero.mpr hrest]
  rw [startsAfter_append, hnone, List.append_nil]
  rcases hends with rfl | ⟨init, rfl⟩
  · rfl
  · rw [startsAfter_append, ← List.cons_append, utf8Length_append]
    exact (List.getLast?_concat ..).trans (by simp)

theorem starts_append (before after : List Char) :
    (ofText (before ++ after)).starts =
      (0 :: startsAfter 0 before) ++ startsAfter (utf8Length before) after := by
  rw [ofText, startsAfter_append, Nat.zero_add, List.cons_append]

/-- The lines that start up to the place behind a prefix are those of the prefix. -/
theorem takeWhile_starts (before after : List Char) :
    (ofText (before ++ after)).starts.takeWhile (· ≤ utf8Length before) =
      0 :: startsAfter 0 before := by
  rw [starts_append, List.takeWhile_append_of_pos, List.takeWhile_eq_nil_iff.mpr, List.append_nil]
  · -- Every line of the rest starts behind the prefix
    intro hpos
    have hlt := (lt_of_mem_startsAfter (List.getElem_mem hpos)).1
    simpa using hlt
  · intro n hn
    rcases List.mem_cons.mp hn with rfl | hn
    · simp
    · have hle := (lt_of_mem_startsAfter hn).2
      simpa using hle

/-- The place behind a prefix is on the line that is numbered with its line feeds. -/
theorem lineColumn?_append {head last before : List Char} (h : IsLineCut head last before)
    (after : List Char) :
    (ofText (before ++ after)).lineColumn? (utf8Length before) =
      some ⟨before.count '\n', utf8Length last⟩ := by
  have hlength : ¬ (ofText (before ++ after)).length < utf8Length before := by
    simp [ofText]
  have hlast : (0 :: startsAfter 0 before).getLastD 0 = utf8Length head := by
    rw [List.getLastD_eq_getLast?, getLast?_starts h, Option.getD_some]
  have hbytes : utf8Length before = utf8Length head + utf8Length last := by
    rw [← h.eq, utf8Length_append]
  rw [lineColumn?, if_neg hlength, takeWhile_starts]
  simp only [hlast, hbytes, List.length_cons, length_startsAfter, Nat.add_sub_cancel_left,
    Nat.add_sub_cancel]

/-- This line starts behind the last line feed of the prefix. -/
theorem lineStart?_append {head last before : List Char} (h : IsLineCut head last before)
    (after : List Char) :
    (ofText (before ++ after)).lineStart? (before.count '\n') = some (utf8Length head) := by
  rw [lineStart?, starts_append, List.getElem?_append_left, ← getLast?_starts h,
    List.getLast?_eq_getElem?]
  · simp [length_startsAfter]
  · simp [length_startsAfter]

/-- Between the start of this line and the place is the last line of the prefix. -/
theorem slice?_lineCut {head last before : List Char} (h : IsLineCut head last before)
    (after : List Char) :
    slice? (utf8Length head) (utf8Length before) (before ++ after) = some last := by
  rw [← h.eq]
  exact slice?_append head last after

end LineIndex

end MapChain
