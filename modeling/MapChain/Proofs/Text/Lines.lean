import Mathlib.Data.List.DropRight
import MapChain.Proofs.Bytes
import MapChain.Proofs.Text.Offsets

/-!
# The line and column of every byte

A line index is asked about bytes, and most of them do not start a character. What it answers is
said of the bytes before the offset alone: as many line feeds as these have is the line, and as many
bytes as stand behind the last of them is the column.

## Layers

- **Starts**: lines start in ascending order, so an offset is on the line that starts at it or
  before it and stops behind it, and on no other (`lineColumn?_eq_some_iff`).
- **Searching**: a binary search among the starts ends on this line (`IsSearched.lineColumn?`).
- **Characters**: an offset within a character is on the line of this character
  (`lineColumn?_of_cut`).
- **Bytes**: a line feed has its byte to itself, so bytes can be counted instead of characters.
- **Statement**: `lineColumn?_bytes`.
-/

namespace MapChain

namespace LineIndex

open Text

/-! ## Starts -/

/-- The first offset that is not on a line any more: the start of the next line, and for the last
line what is past the end of the text. -/
def lineStop (index : LineIndex) (line : Nat) : Nat :=
  (index.lineStart? (line + 1)).getD (index.length + 1)

theorem pairwise_startsAfter (offset : Nat) (text : List Char) :
    (startsAfter offset text).Pairwise (· < ·) := by
  induction text generalizing offset with
  | nil => exact .nil
  | cons c text ih =>
    rw [startsAfter]
    split
    · exact List.pairwise_cons.mpr ⟨fun _ hn => (lt_of_mem_startsAfter hn).1, ih _⟩
    · exact ih _

theorem pairwise_starts (text : List Char) : (ofText text).starts.Pairwise (· < ·) :=
  List.pairwise_cons.mpr ⟨fun _ hn => (lt_of_mem_startsAfter hn).1, pairwise_startsAfter 0 text⟩

theorem lineStart?_lt {text : List Char} {i j a b : Nat} (hij : i < j)
    (ha : (ofText text).lineStart? i = some a) (hb : (ofText text).lineStart? j = some b) :
    a < b := by
  obtain ⟨hi, rfl⟩ := List.getElem?_eq_some_iff.mp ha
  obtain ⟨hj, rfl⟩ := List.getElem?_eq_some_iff.mp hb
  exact List.pairwise_iff_getElem.mp (pairwise_starts text) i j hi hj hij

theorem lineStart?_le {text : List Char} {line start : Nat}
    (h : (ofText text).lineStart? line = some start) : start ≤ utf8Length text := by
  rcases List.mem_cons.mp (List.mem_of_getElem? h) with rfl | hmem
  · exact Nat.zero_le _
  · have hle := (lt_of_mem_startsAfter hmem).2
    rwa [Nat.zero_add] at hle

/-- Up to the end of the text, an offset is in front of a line's stop when no next line starts at it
or before it. -/
theorem lt_lineStop_iff {text : List Char} {line offset : Nat} (hle : offset ≤ utf8Length text) :
    offset < (ofText text).lineStop line ↔
      ∀ next, (ofText text).lineStart? (line + 1) = some next → offset < next := by
  rw [lineStop]
  cases (ofText text).lineStart? (line + 1) with
  | none => exact ⟨nofun, fun _ => Nat.lt_succ_of_le hle⟩
  | some next => simp

/-- A line stops where a later one starts, or before. -/
theorem lineStop_le {text : List Char} {i j b : Nat} (hij : i < j)
    (hb : (ofText text).lineStart? j = some b) : (ofText text).lineStop i ≤ b := by
  obtain ⟨hj, -⟩ := List.getElem?_eq_some_iff.mp hb
  have hnext := List.getElem?_eq_getElem (Nat.lt_of_le_of_lt hij hj)
  rw [lineStop, lineStart?, hnext, Option.getD_some]
  rcases Nat.eq_or_lt_of_le hij with rfl | hlt
  · exact Nat.le_of_eq (Option.some.inj (hnext.symm.trans hb))
  · exact (lineStart?_lt hlt hnext hb).le

theorem lineStop_le_length {text : List Char} {line : Nat} :
    (ofText text).lineStop line ≤ utf8Length text + 1 := by
  rw [lineStop]
  cases hnext : (ofText text).lineStart? (line + 1) with
  | none => exact Nat.le_refl _
  | some next => exact (lineStart?_le hnext).trans (Nat.le_succ _)

theorem offset?_eq_some_iff {index : LineIndex} {p : LineColumn} {offset : Nat} :
    index.offset? p = some offset ↔
      ∃ start, index.lineStart? p.line = some start ∧ start + p.column = offset :=
  Option.map_eq_some_iff

/-- An offset is on one line only. -/
theorem eq_of_offset? {text : List Char} {p q : LineColumn} {offset : Nat}
    (hp : (ofText text).offset? p = some offset) (hpstop : offset < (ofText text).lineStop p.line)
    (hq : (ofText text).offset? q = some offset)
    (hqstop : offset < (ofText text).lineStop q.line) : p = q := by
  obtain ⟨a, ha, hpa⟩ := offset?_eq_some_iff.mp hp
  obtain ⟨b, hb, hqb⟩ := offset?_eq_some_iff.mp hq
  have hline : p.line = q.line := by
    rcases Nat.lt_trichotomy p.line q.line with hlt | heq | hgt
    · have := lineStop_le hlt hb
      omega
    · exact heq
    · have := lineStop_le hgt ha
      omega
  rw [hline, hb] at ha
  obtain rfl := Option.some.inj ha
  have hcolumn : p.column = q.column := by omega
  exact congrArg₂ LineColumn.mk hline hcolumn

/-- The element behind those that pass a test does not pass it. -/
private theorem not_of_getElem?_length_takeWhile {α : Type} (test : α → Bool) {l : List α} {a : α}
    (h : l[(l.takeWhile test).length]? = some a) : test a = false := by
  induction l with
  | nil => cases h
  | cons b l ih =>
    cases hb : test b with
    | true =>
      rw [List.takeWhile_cons_of_pos hb, List.length_cons, List.getElem?_cons_succ] at h
      exact ih h
    | false =>
      rw [List.takeWhile_cons_of_neg (by simp [hb]), List.length_nil,
        List.getElem?_cons_zero] at h
      exact Option.some.inj h ▸ hb

/-- A search ends on a line that the offset is on. -/
theorem exists_lineColumn? {text : List Char} {offset : Nat} (h : offset ≤ utf8Length text) :
    ∃ p, (ofText text).lineColumn? offset = some p ∧ (ofText text).offset? p = some offset ∧
      offset < (ofText text).lineStop p.line := by
  -- The first line starts at the beginning, so some line is reached
  obtain ⟨others, hreached⟩ : ∃ others, (ofText text).starts.takeWhile (· ≤ offset) = 0 :: others :=
    ⟨_, List.takeWhile_cons_of_pos (by simp)⟩
  obtain ⟨start, hlast⟩ : ∃ start, (0 :: others).getLast? = some start := by
    simp [List.getLast?_cons]
  have hle : start ≤ offset := by
    have hmem := List.mem_of_getLast? hlast
    rw [← hreached] at hmem
    simpa using List.mem_takeWhile_imp hmem
  have hstart : (ofText text).lineStart? others.length = some start := by
    have hprefix := List.takeWhile_prefix (l := (ofText text).starts) (· ≤ offset)
    rw [hreached] at hprefix
    obtain ⟨rest, hrest⟩ := hprefix
    rw [lineStart?, ← hrest, List.getElem?_append_left (by simp), ← hlast,
      List.getLast?_eq_getElem?]
    rfl
  have hlength : ¬ (ofText text).length < offset := Nat.not_lt_of_le h
  refine ⟨⟨others.length, offset - start⟩, ?_, ?_, ?_⟩
  · rw [lineColumn?, if_neg hlength]
    simp [hreached, List.getLastD_eq_getLast?, hlast]
  · exact offset?_eq_some_iff.mpr ⟨start, hstart, by simp only; omega⟩
  · refine (lt_lineStop_iff h).mpr fun next hnext => ?_
    have hnot : decide (next ≤ offset) = false := by
      have hget : (ofText text).starts[((ofText text).starts.takeWhile (· ≤ offset)).length]? =
          some next := by
        rw [hreached]
        exact hnext
      exact not_of_getElem?_length_takeWhile (· ≤ offset) hget
    simpa using hnot

theorem lineColumn?_eq_none_iff {text : List Char} {offset : Nat} :
    (ofText text).lineColumn? offset = none ↔ utf8Length text < offset := by
  simp [lineColumn?, ofText]

/-- **The line of an offset** is the one that starts at the offset or before it and stops behind
it. -/
theorem lineColumn?_eq_some_iff {text : List Char} {offset : Nat} {p : LineColumn} :
    (ofText text).lineColumn? offset = some p ↔
      (ofText text).offset? p = some offset ∧ offset < (ofText text).lineStop p.line := by
  constructor
  · intro h
    have hle : offset ≤ utf8Length text := by
      by_contra hlt
      rw [lineColumn?_eq_none_iff.mpr (Nat.lt_of_not_le hlt)] at h
      cases h
    obtain ⟨q, hq, hoffset⟩ := exists_lineColumn? hle
    obtain rfl := Option.some.inj (hq.symm.trans h)
    exact hoffset
  · rintro ⟨hoffset, hstop⟩
    have hle := Nat.le_of_lt_succ (hstop.trans_le lineStop_le_length)
    obtain ⟨q, hq, hqoffset, hqstop⟩ := exists_lineColumn? hle
    rw [hq, eq_of_offset? hqoffset hqstop hoffset hstop]

/-! ## Searching -/

/-- The answer of a binary search for an offset among starts in ascending order: the index at which
it stands, or else the index at which it would have to be inserted. -/
inductive IsSearched (starts : List Nat) (offset : Nat) : Except Nat Nat → Prop where
  | found {i : Nat} (h : starts[i]? = some offset) : IsSearched starts offset (.ok i)
  | missing {i : Nat} (hle : i ≤ starts.length) (hbelow : ∀ start ∈ starts.take i, start < offset)
    (habove : ∀ start ∈ starts.drop i, offset < start) : IsSearched starts offset (.error i)

/-- The line that an answer stands for. An offset that starts no line belongs to the line before the
place at which it would be inserted. -/
def searchedLine : Except Nat Nat → Nat
  | .ok i => i
  | .error i => i - 1

/-- **A search ends on the line of the offset**, whether it finds the offset or not. -/
theorem IsSearched.lineColumn? {text : List Char} {offset : Nat} {answer : Except Nat Nat}
    (h : IsSearched (ofText text).starts offset answer) (hle : offset ≤ utf8Length text) :
    ∃ column, (ofText text).lineColumn? offset = some ⟨searchedLine answer, column⟩ := by
  cases h with
  | @found i hfound =>
    have hstop : offset < (ofText text).lineStop i :=
      (lt_lineStop_iff hle).mpr fun next hnext => lineStart?_lt (Nat.lt_succ_self i) hfound hnext
    exact ⟨0, lineColumn?_eq_some_iff.mpr
      ⟨offset?_eq_some_iff.mpr ⟨offset, hfound, rfl⟩, hstop⟩⟩
  | @missing i hlength hbelow habove =>
    -- The first line starts at the beginning, so nothing is inserted in front of it
    obtain ⟨line, rfl⟩ : ∃ line, i = line + 1 := by
      refine Nat.exists_eq_add_one_of_ne_zero ?_
      rintro rfl
      exact absurd (habove 0 List.mem_cons_self) (Nat.not_lt_zero offset)
    have hstart := List.getElem?_eq_getElem hlength
    have hstartle := hbelow _ (List.mem_take_iff_getElem.mpr ⟨line, by omega, rfl⟩)
    have hstop : offset < (ofText text).lineStop line := by
      refine (lt_lineStop_iff hle).mpr fun next hnext => habove next ?_
      have hmem : ((ofText text).starts.drop (line + 1))[0]? = some next := by
        rw [List.getElem?_drop]
        exact hnext
      exact List.mem_of_getElem? hmem
    exact ⟨_, lineColumn?_eq_some_iff.mpr
      ⟨offset?_eq_some_iff.mpr ⟨_, hstart, Nat.add_sub_cancel' hstartle.le⟩, hstop⟩⟩

/-! ## Characters -/

/-- A text cut at the character that an offset is in: the offset is reached within the first
character behind the cut, or at the end of the text. -/
structure IsCut (text : List Char) (offset : Nat) (before after : List Char) : Prop where
  eq : before ++ after = text
  le : utf8Length before ≤ offset
  inside : ∀ c ∈ after.head?, offset < utf8Length before + c.utf8Size

theorem exists_cut {text : List Char} {offset : Nat} (h : offset ≤ utf8Length text) :
    ∃ before after, IsCut text offset before after := by
  induction text generalizing offset with
  | nil => exact ⟨[], [], rfl, Nat.zero_le _, nofun⟩
  | cons c text ih =>
    rcases Nat.lt_or_ge offset c.utf8Size with hlt | hge
    · refine ⟨[], c :: text, rfl, Nat.zero_le _, ?_⟩
      rintro _ ⟨⟩
      simpa using hlt
    · -- The first character lies before the offset
      rw [utf8Length_cons] at h
      have hrest : offset - c.utf8Size ≤ utf8Length text := by omega
      obtain ⟨before, after, rfl, hle, hinside⟩ := ih hrest
      refine ⟨c :: before, after, rfl, by rw [utf8Length_cons]; omega, fun d hd => ?_⟩
      have := hinside d hd
      rw [utf8Length_cons]
      omega

/-- Lines that start behind a cut start behind the offset. -/
theorem lt_of_mem_startsAfter_cut {text before after : List Char} {offset n : Nat}
    (h : IsCut text offset before after) (hn : n ∈ startsAfter (utf8Length before) after) :
    offset < n := by
  cases after with
  | nil => cases hn
  | cons c after =>
    have hinside := h.inside c rfl
    rw [startsAfter] at hn
    split at hn
    · rcases List.mem_cons.mp hn with rfl | hn
      · exact hinside
      · exact hinside.trans (lt_of_mem_startsAfter hn).1
    · exact hinside.trans (lt_of_mem_startsAfter hn).1

/-- An offset within a character is on the line of this character. -/
theorem lineColumn?_of_cut {text before after head last : List Char} {offset : Nat}
    (h : IsCut text offset before after) (hline : IsLineCut head last before)
    (hle : offset ≤ utf8Length text) :
    (ofText text).lineColumn? offset = some ⟨before.count '\n', offset - utf8Length head⟩ := by
  have hhead : utf8Length head ≤ offset := by
    have hbefore := h.le
    rw [← hline.eq, utf8Length_append] at hbefore
    omega
  have hstart := lineStart?_append hline after
  have hstop : offset < (ofText text).lineStop (before.count '\n') := by
    refine (lt_lineStop_iff hle).mpr fun next hnext => ?_
    rw [lineStart?, ← h.eq, starts_append, List.getElem?_append_right] at hnext
    · exact lt_of_mem_startsAfter_cut h (List.mem_of_getElem? hnext)
    · simp [length_startsAfter]
  rw [h.eq] at hstart
  exact lineColumn?_eq_some_iff.mpr
    ⟨offset?_eq_some_iff.mpr ⟨_, hstart, Nat.add_sub_cancel' hhead⟩, hstop⟩

/-! ## Bytes -/

/-- The byte of a line feed. -/
def feed : UInt8 := 10

/-- The bytes behind the last line feed. -/
def lastLine (bytes : List UInt8) : List UInt8 := bytes.rtakeWhile (· != feed)

theorem utf8EncodeChar_feed : String.utf8EncodeChar '\n' = [feed] := rfl

theorem feed_mem_utf8EncodeChar_iff {c : Char} : feed ∈ String.utf8EncodeChar c ↔ c = '\n' := by
  constructor
  · intro h
    by_cases hlt : c.toNat < 128
    · rw [utf8EncodeChar_of_lt hlt, List.mem_singleton] at h
      have hvalue := congrArg UInt8.toNat h
      rw [UInt8.toNat_ofNat', Nat.mod_eq_of_lt (by omega)] at hvalue
      exact Char.toNat_inj.mp hvalue.symm
    · exact absurd (le_of_mem_utf8EncodeChar (Nat.le_of_not_lt hlt) h) (by decide)
  · rintro rfl
    exact List.mem_singleton_self feed

theorem count_feed_flatMap (text : List Char) :
    (text.flatMap String.utf8EncodeChar).count feed = text.count '\n' := by
  induction text with
  | nil => rfl
  | cons c text ih =>
    rw [List.flatMap_cons, List.count_append, ih, List.count_cons]
    by_cases hc : c = '\n'
    · subst hc
      exact Nat.add_comm _ _
    · rw [List.count_eq_zero.mpr (mt feed_mem_utf8EncodeChar_iff.mp hc)]
      simp [hc]

theorem length_flatMap_utf8EncodeChar (text : List Char) :
    (text.flatMap String.utf8EncodeChar).length = utf8Length text := by
  induction text with
  | nil => rfl
  | cons c text ih =>
    rw [List.flatMap_cons, List.length_append, String.length_utf8EncodeChar, ih, utf8Length_cons]

/-- The bytes before an offset are those of the characters before the cut and some of the next
one, among which there is no line feed. -/
theorem exists_take_of_cut {text before after : List Char} {offset : Nat}
    (h : IsCut text offset before after) :
    ∃ part : List UInt8, feed ∉ part ∧
      (text.flatMap String.utf8EncodeChar).take offset =
        before.flatMap String.utf8EncodeChar ++ part := by
  refine ⟨(after.flatMap String.utf8EncodeChar).take (offset - utf8Length before), ?_, ?_⟩
  · cases after with
    | nil => simp
    | cons c after =>
      have hinside := h.inside c rfl
      rw [List.flatMap_cons, List.take_append_of_le_length
        (by rw [String.length_utf8EncodeChar]; omega)]
      intro hmem
      -- A line feed has one byte, and of its character fewer are taken
      obtain rfl := feed_mem_utf8EncodeChar_iff.mp (List.mem_of_mem_take hmem)
      have hnone : offset - utf8Length before = 0 := by
        have hsize : Char.utf8Size '\n' = 1 := rfl
        omega
      rw [hnone] at hmem
      cases hmem
  · rw [← h.eq, List.flatMap_append, List.take_append, length_flatMap_utf8EncodeChar,
      List.take_of_length_le (by rw [length_flatMap_utf8EncodeChar]; exact h.le)]

/-- What stands behind a line feed, or at the beginning, and has none itself is the last line. -/
theorem lastLine_append {front line : List UInt8} (hfront : ∀ b ∈ front.getLast?, b = feed)
    (hline : feed ∉ line) : lastLine (front ++ line) = line := by
  have hpass : ∀ b ∈ line.reverse, (b != feed) = true := by
    intro b hb
    rw [bne_iff_ne]
    rintro rfl
    exact hline (List.mem_reverse.mp hb)
  have hstop : front.reverse.takeWhile (· != feed) = [] := by
    cases hlast : front.getLast? with
    | none => rw [List.getLast?_eq_none_iff.mp hlast]; rfl
    | some b =>
      obtain ⟨init, rfl⟩ := List.getLast?_eq_some_iff.mp hlast
      rw [hfront b hlast, List.reverse_concat, List.takeWhile_cons_of_neg (by simp)]
  rw [lastLine, List.rtakeWhile, List.reverse_append, List.takeWhile_append_of_pos hpass, hstop,
    List.append_nil, List.reverse_reverse]

/-- Counted in bytes, the line feeds before an offset are its line and what stands behind the last
of them is its column. -/
theorem lineColumn?_take {text : List Char} {offset : Nat} (h : offset ≤ utf8Length text) :
    (ofText text).lineColumn? offset =
      some ⟨((text.flatMap String.utf8EncodeChar).take offset).count feed,
        (lastLine ((text.flatMap String.utf8EncodeChar).take offset)).length⟩ := by
  obtain ⟨before, after, hcut⟩ := exists_cut h
  obtain ⟨head, last, hline⟩ := exists_lineCut before
  obtain ⟨part, hpart, htake⟩ := exists_take_of_cut hcut
  have hlast : feed ∉ last.flatMap String.utf8EncodeChar ++ part := by
    rw [List.mem_append, List.mem_flatMap, not_or]
    refine ⟨?_, hpart⟩
    rintro ⟨c, hc, hfeed⟩
    exact hline.rest (feed_mem_utf8EncodeChar_iff.mp hfeed ▸ hc)
  have hhead : ∀ b ∈ (head.flatMap String.utf8EncodeChar).getLast?, b = feed := by
    intro b hb
    rcases hline.ends with rfl | ⟨init, rfl⟩
    · cases hb
    · rw [List.flatMap_append, List.flatMap_singleton, utf8EncodeChar_feed,
        List.getLast?_concat] at hb
      exact (Option.mem_some.mp hb).symm
  -- The bytes before the offset are as many as the offset says
  have hlength := congrArg List.length htake
  rw [List.length_take, length_flatMap_utf8EncodeChar, Nat.min_eq_left h, List.length_append,
    length_flatMap_utf8EncodeChar, ← hline.eq, utf8Length_append] at hlength
  rw [lineColumn?_of_cut hcut hline h, htake, List.count_append, count_feed_flatMap,
    List.count_eq_zero.mpr hpart, ← hline.eq, List.flatMap_append, List.append_assoc,
    lastLine_append hhead hlast, List.length_append, length_flatMap_utf8EncodeChar]
  simp only [Nat.add_zero, Option.some.injEq, LineColumn.mk.injEq, true_and]
  omega

/-! ## Statement -/

/-- **Lines and columns by the bytes of a text.** Every offset up to the end of the text has a line
and a column, also within a character, and no offset past the end has. The line is the number of
line feeds among the bytes before the offset, the column is the number of bytes behind the last of
them, and this place leads back to the offset. A binary search among the starts of lines ends on
this line. Conversely, every place on a line, which on the last line may be at the end of the text,
leads to an offset that has this line and column. -/
theorem lineColumn?_bytes (text : String) :
    (∀ offset, (ofText text.toList).lineColumn? offset = none ↔ text.utf8ByteSize < offset) ∧
      (∀ offset ≤ text.utf8ByteSize, ∃ p, (ofText text.toList).lineColumn? offset = some p ∧
        p.line = (text.toUTF8.toList.take offset).count feed ∧
        p.column = (lastLine (text.toUTF8.toList.take offset)).length ∧
        (ofText text.toList).offset? p = some offset ∧
        ∀ answer, IsSearched (ofText text.toList).starts offset answer →
          searchedLine answer = p.line) ∧
      ∀ line < (ofText text.toList).lineCount, ∃ start,
        (ofText text.toList).lineStart? line = some start ∧
          ∀ column, start + column < (ofText text.toList).lineStop line →
            ((ofText text.toList).offset? ⟨line, column⟩).bind (ofText text.toList).lineColumn? =
              some ⟨line, column⟩ := by
  have hsize : text.utf8ByteSize = utf8Length text.toList := by
    rw [← length_flatMap_utf8EncodeChar, ← toUTF8_toList, byteArray_toList, Array.length_toList]
    rfl
  rw [hsize]
  refine ⟨fun offset => lineColumn?_eq_none_iff, fun offset hle => ?_, fun line hline => ?_⟩
  · have hplace := lineColumn?_take hle
    rw [← toUTF8_toList] at hplace
    refine ⟨_, hplace, rfl, rfl, (lineColumn?_eq_some_iff.mp hplace).1, fun answer hanswer => ?_⟩
    obtain ⟨column, hsearched⟩ := hanswer.lineColumn? hle
    exact congrArg LineColumn.line (Option.some.inj (hsearched.symm.trans hplace))
  · refine ⟨_, List.getElem?_eq_getElem hline, fun column hcolumn => ?_⟩
    have hoffset : (ofText text.toList).offset? ⟨line, column⟩ =
        some ((ofText text.toList).starts[line] + column) :=
      offset?_eq_some_iff.mpr ⟨_, List.getElem?_eq_getElem hline, rfl⟩
    rw [hoffset, Option.bind_some]
    exact lineColumn?_eq_some_iff.mpr ⟨hoffset, hcolumn⟩

/-- The third byte of a character of four is on the line of this character, two bytes behind its
first. -/
example : (ofText ['a', '\n', 'é', '😀', '\n']).lineColumn? 6 = some ⟨1, 4⟩ := by
  decide

end LineIndex

end MapChain
