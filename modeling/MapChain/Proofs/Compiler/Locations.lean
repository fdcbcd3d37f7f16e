import Mathlib.Algebra.Group.Nat.Defs
import MapChain.Compiler.CompileError
import MapChain.Proofs.Text.Offsets

/-!
# Where a compile error points

The compiler counts UTF-16 units from the beginning of a file, the line index counts bytes, and an
error is shown with a line and a column in units. Between them a text is cut at two byte offsets.
The cut always succeeds, because both offsets stand between characters, and where the error points
is a matter of the characters before the place: their line feeds and what follows the last of them.

A line and a column are kept in 32 bits. In a text of fewer than `2 ^ 32` bytes no number is greater
than `2 ^ 32`, which is kept as zero (`location_letters_wrapped`); all others are exact.

## Layers

- **Places**: `PointsAt` is the line and column that units lead to; `PointsAt.le` bounds both.
- **Locations**: `place?_eq_some_iff` and `location_eq_some_iff`, for what an error keeps of them.
- **Statement**: `ofDiagnostic_location`.
-/

namespace MapChain

open Text LineIndex

/-! ## Places -/

/-- A number of UTF-16 units leads to a line and a column of a text, both counted from one. The
place is behind the fewest characters that have so many units; the column counts the units behind
the last line feed before it. -/
def PointsAt (text : List Char) (units line column : Nat) : Prop :=
  ∃ before head last, IsReach units before text ∧ IsLineCut head last before ∧
    line = before.count '\n' + 1 ∧ column = utf16Length last + 1

/-- Units lead somewhere when the text has so many. -/
theorem exists_pointsAt_iff {text : List Char} {units : Nat} :
    (∃ line column, PointsAt text units line column) ↔ units ≤ utf16Length text := by
  constructor
  · rintro ⟨_, _, before, _, _, hreach, -⟩
    exact hreach.le
  · intro h
    obtain ⟨before, hreach, -⟩ := exists_reach h
    obtain ⟨head, last, hcut⟩ := exists_lineCut before
    exact ⟨_, _, before, head, last, hreach, hcut, rfl, rfl⟩

/-- Neither number is more than one more than the bytes of the text. -/
theorem PointsAt.le {text : List Char} {units line column : Nat}
    (h : PointsAt text units line column) :
    line ≤ utf8Length text + 1 ∧ column ≤ utf8Length text + 1 := by
  obtain ⟨before, head, last, hreach, ⟨rfl, -, -⟩, rfl, rfl⟩ := h
  obtain ⟨after, rfl⟩ := hreach.isPrefix
  -- Line feeds are characters, and neither characters nor units are more than bytes
  have hline := List.count_le_length (a := '\n') (l := head ++ last)
  have hchars := length_le_utf8Length (head ++ last)
  have hcolumn := utf16Length_le_utf8Length last
  simp only [utf8Length_append] at hchars ⊢
  omega

/-- A location has a line and a column as far as 32 bits keep them. -/
def ErrorLocation.Keeps (l : ErrorLocation) (line column : Nat) : Prop :=
  l.line = UInt32.ofNat line ∧ l.column = UInt32.ofNat column

theorem toNat_ofNat_of_le {n : Nat} (hle : n ≤ 2 ^ 32) (hne : n ≠ 2 ^ 32) :
    (UInt32.ofNat n).toNat = n :=
  UInt32.toNat_ofNat_of_lt' (Nat.lt_of_le_of_ne hle hne)

/-- In a text of fewer than `2 ^ 32` bytes no number but `2 ^ 32` itself is lost. -/
theorem ErrorLocation.Keeps.exact {l : ErrorLocation} {text : List Char} {units line column : Nat}
    (h : l.Keeps line column) (hpoints : PointsAt text units line column)
    (hlength : utf8Length text < 2 ^ 32) :
    (line ≠ 2 ^ 32 → l.line.toNat = line) ∧ (column ≠ 2 ^ 32 → l.column.toNat = column) := by
  obtain ⟨hline, hcolumn⟩ := hpoints.le
  rw [h.1, h.2]
  exact ⟨toNat_ofNat_of_le (by omega), toNat_ofNat_of_le (by omega)⟩

namespace CompileError

/-! ## Locations -/

/-- The line and column, counted from one and the column in units, of a byte offset. -/
def placeAt? (text : List Char) (offset : Nat) : Option (UInt32 × UInt32) := do
  let place ← (LineIndex.ofText text).lineColumn? offset
  let lineStart ← (LineIndex.ofText text).lineStart? place.line
  let before ← Text.slice? lineStart offset text
  return (UInt32.ofNat place.line + 1, UInt32.ofNat (Text.utf16Length before) + 1)

/-- How far a diagnostic reaches does not matter for where it starts. -/
theorem place?_eq_bind (d : Diagnostic) (text : List Char) :
    place? d text =
      (d.start.bind fun start => byteOffset? start.toNat text).bind (placeAt? text) := by
  rw [place?, Diagnostic.span?]
  cases d.start with
  | none => rfl
  | some start =>
    simp only [Option.bind_eq_bind, Option.bind_some]
    -- The end of the span is found wherever its start is
    cases byteOffset? start.toNat text <;> rfl

theorem placeAt?_append {head last before : List Char} (h : IsLineCut head last before)
    (after : List Char) :
    placeAt? (before ++ after) (utf8Length before) =
      some (UInt32.ofNat (before.count '\n' + 1), UInt32.ofNat (utf16Length last + 1)) := by
  simp only [placeAt?, lineColumn?_append h, lineStart?_append h, slice?_lineCut h,
    Option.bind_eq_bind, Option.bind_some, UInt32.ofNat_add]
  rfl

theorem place?_eq_some_iff {d : Diagnostic} {text : List Char} {place : UInt32 × UInt32} :
    place? d text = some place ↔
      ∃ start line column, d.start = some start ∧ PointsAt text start.toNat line column ∧
        place = (UInt32.ofNat line, UInt32.ofNat column) := by
  rw [place?_eq_bind]
  simp only [Option.bind_eq_some_iff, byteOffset?_eq_some_iff]
  constructor
  · rintro ⟨_, ⟨start, hstart, before, hreach, rfl⟩, hplace⟩
    obtain ⟨head, last, hcut⟩ := exists_lineCut before
    obtain ⟨after, rfl⟩ := hreach.isPrefix
    rw [placeAt?_append hcut] at hplace
    exact ⟨start, _, _, hstart, ⟨before, head, last, hreach, hcut, rfl, rfl⟩,
      (Option.some.inj hplace).symm⟩
  · rintro ⟨start, _, _, hstart, ⟨before, head, last, hreach, hcut, rfl, rfl⟩, rfl⟩
    obtain ⟨after, hafter⟩ := hreach.isPrefix
    refine ⟨_, ⟨start, hstart, before, hreach, rfl⟩, ?_⟩
    rw [← hafter, placeAt?_append hcut]

theorem location_eq_some_iff {d : Diagnostic} {source : String} {l : ErrorLocation} :
    (ofDiagnostic d source).location = some l ↔
      d.file = some l.file ∧ ∃ start line column, d.start = some start ∧
        PointsAt source.toList start.toNat line column ∧ l.Keeps line column := by
  simp only [ofDiagnostic, Option.bind_eq_bind, Option.bind_eq_some_iff, place?_eq_some_iff,
    Option.pure_def, Option.some.injEq]
  constructor
  · rintro ⟨file, hfile, _, ⟨start, line, column, hstart, hpoints, rfl⟩, rfl⟩
    exact ⟨hfile, start, line, column, hstart, hpoints, rfl, rfl⟩
  · rintro ⟨hfile, start, line, column, hstart, hpoints, hline, hcolumn⟩
    refine ⟨l.file, hfile, _, ⟨start, line, column, hstart, hpoints, rfl⟩, ?_⟩
    rw [← hline, ← hcolumn]

theorem exists_reach_of_span {d : Diagnostic} {text : List Char} {span : Span}
    (h : d.span? text = some span) :
    ∃ start before, d.start = some start ∧ IsReach start.toNat before text ∧
      span.start = utf8Length before := by
  simp only [Diagnostic.span?, Option.bind_eq_bind, Option.bind_eq_some_iff,
    byteOffset?_eq_some_iff] at h
  obtain ⟨start, hstart, _, ⟨before, hreach, rfl⟩, hspan⟩ := h
  cases hspan
  exact ⟨start, before, hstart, hreach, rfl⟩

/-- The line of an offset is found, and the text can be cut from where it starts to the offset. -/
def HasLineUpTo (text : List Char) (offset : Nat) : Prop :=
  ∃ place lineStart before, (LineIndex.ofText text).lineColumn? offset = some place ∧
    (LineIndex.ofText text).lineStart? place.line = some lineStart ∧
    slice? lineStart offset text = some before

theorem hasLineUpTo_of_span {d : Diagnostic} {text : List Char} {span : Span}
    (h : d.span? text = some span) : HasLineUpTo text span.start := by
  obtain ⟨start, before, -, hreach, hspan⟩ := exists_reach_of_span h
  obtain ⟨head, last, hcut⟩ := exists_lineCut before
  obtain ⟨after, rfl⟩ := hreach.isPrefix
  rw [hspan]
  exact ⟨_, _, last, lineColumn?_append hcut after, lineStart?_append hcut after,
    slice?_lineCut hcut after⟩

theorem isSome_location_iff {d : Diagnostic} {source : String} :
    (ofDiagnostic d source).location.isSome ↔ ∃ file start, d.file = some file ∧
      d.start = some start ∧ start.toNat ≤ utf16Length source.toList := by
  simp only [Option.isSome_iff_exists, location_eq_some_iff, ← exists_pointsAt_iff]
  constructor
  · rintro ⟨l, hfile, start, line, column, hstart, hpoints, -⟩
    exact ⟨l.file, start, hfile, hstart, line, column, hpoints⟩
  · rintro ⟨file, start, hfile, hstart, line, column, hpoints⟩
    exact ⟨⟨file, UInt32.ofNat line, UInt32.ofNat column⟩, hfile, start, line, column, hstart,
      hpoints, rfl, rfl⟩

/-! ## Statement -/

/-- **Where a compile error points.** Making the error never cuts the text within a character or
past its end. The error has a location when the diagnostic names a file and starts in the text or at
its end. The location has the line and column there, however far the diagnostic reaches. They are kept
in 32 bits, and in a text of fewer than `2 ^ 32` bytes only the number `2 ^ 32` is lost by this. -/
theorem ofDiagnostic_location (d : Diagnostic) (source : String) :
    (∀ span, d.span? source.toList = some span → HasLineUpTo source.toList span.start) ∧
      ((ofDiagnostic d source).location.isSome ↔ ∃ file start, d.file = some file ∧
        d.start = some start ∧ start.toNat ≤ utf16Length source.toList) ∧
      (∀ l, (ofDiagnostic d source).location = some l →
        d.file = some l.file ∧ ∃ start line column, d.start = some start ∧
          PointsAt source.toList start.toNat line column ∧ l.Keeps line column ∧
          (utf8Length source.toList < 2 ^ 32 →
            (line ≠ 2 ^ 32 → l.line.toNat = line) ∧ (column ≠ 2 ^ 32 → l.column.toNat = column))) ∧
      ∀ length, (ofDiagnostic { d with length } source).location =
        (ofDiagnostic d source).location := by
  refine ⟨fun span => hasLineUpTo_of_span, isSome_location_iff, fun l h => ?_, fun length => ?_⟩
  · obtain ⟨hfile, start, line, column, hstart, hpoints, hkeeps⟩ := location_eq_some_iff.mp h
    exact ⟨hfile, start, line, column, hstart, hpoints, hkeeps, hkeeps.exact hpoints⟩
  · -- Neither side of the characterization mentions the length
    refine Option.ext fun l => ?_
    rw [location_eq_some_iff, location_eq_some_iff]

/-- A diagnostic of a file that starts at some number of units. -/
def startingAt (start : UInt32) : Diagnostic := ⟨.error, 0, .text "", some "a.ts", some start, none⟩

/-- A diagnostic that starts within a surrogate pair points behind it. -/
theorem location_within_pair :
    utf8Length "é\n😀x".toList < 2 ^ 32 ∧
      (ofDiagnostic (startingAt 3) "é\n😀x").location = some ⟨"a.ts", 2, 3⟩ ∧
      PointsAt "é\n😀x".toList 3 2 3 := by
  have hbytes : utf8Length "é\n😀x".toList = 8 := by decide +kernel
  have hlength : utf8Length "é\n😀x".toList < 2 ^ 32 := by
    rw [hbytes]
    decide
  have hlocation : (ofDiagnostic (startingAt 3) "é\n😀x").location = some ⟨"a.ts", 2, 3⟩ := by
    decide +kernel
  obtain ⟨-, -, hplaces, -⟩ := ofDiagnostic_location (startingAt 3) "é\n😀x"
  obtain ⟨-, start, line, column, hstart, hpoints, -, hexact⟩ := hplaces _ hlocation
  cases hstart
  -- In so short a text both numbers are exact
  obtain ⟨hle, hle'⟩ := hpoints.le
  rw [hbytes] at hle hle'
  obtain rfl : 2 = line := (hexact hlength).1 (by omega)
  obtain rfl : 3 = column := (hexact hlength).2 (by omega)
  exact ⟨hlength, hlocation, hpoints⟩

/-! ## The last column -/

/-- A text of one line that is nothing but letters. -/
def letters (n : Nat) : String := String.ofList (List.replicate n 'a')

/-- A letter is one byte and one unit. -/
theorem length_letters (n : Nat) :
    utf8Length (letters n).toList = n ∧ utf16Length (letters n).toList = n := by
  rw [letters, String.toList_ofList]
  induction n with
  | zero => exact ⟨rfl, rfl⟩
  | succ n ih =>
    rw [List.replicate_succ, utf8Length_cons, utf16Length_cons, ih.1, ih.2, Nat.add_comm n]
    exact ⟨rfl, rfl⟩

/-- The end of the text is behind all of its letters. -/
theorem pointsAt_letters (n : Nat) : PointsAt (letters n).toList n 1 (n + 1) := by
  have hrest : '\n' ∉ (letters n).toList := by
    rw [letters, String.toList_ofList]
    exact fun hmem => absurd (List.eq_of_mem_replicate hmem) (by decide)
  have hreach := IsReach.of_isPrefix (List.prefix_refl (letters n).toList)
  rw [(length_letters n).2] at hreach
  refine ⟨(letters n).toList, [], (letters n).toList, hreach, ⟨rfl, .inl rfl, hrest⟩, ?_, ?_⟩
  · rw [List.count_eq_zero.mpr hrest]
  · rw [(length_letters n).2]

/-- The error at the end of the letters is in the column behind them, as far as 32 bits go. -/
theorem location_letters {n : Nat} (hn : n < UInt32.size) :
    (ofDiagnostic (startingAt (UInt32.ofNat n)) (letters n)).location =
      some ⟨"a.ts", 1, UInt32.ofNat (n + 1)⟩ := by
  refine location_eq_some_iff.mpr ⟨rfl, UInt32.ofNat n, 1, n + 1, rfl, ?_, rfl, rfl⟩
  rw [UInt32.toNat_ofNat_of_lt' hn]
  exact pointsAt_letters n

/-- **The column behind the longest line does not fit.** The text has fewer than `2 ^ 32` bytes, and
the diagnostic starts at its end, in column `2 ^ 32`. The column that is kept is zero, in which
nothing of a text is. -/
theorem location_letters_wrapped :
    utf8Length (letters (2 ^ 32 - 1)).toList < 2 ^ 32 ∧
      PointsAt (letters (2 ^ 32 - 1)).toList (UInt32.ofNat (2 ^ 32 - 1)).toNat 1 (2 ^ 32) ∧
      (ofDiagnostic (startingAt (UInt32.ofNat (2 ^ 32 - 1))) (letters (2 ^ 32 - 1))).location =
        some ⟨"a.ts", 1, 0⟩ ∧
      ¬ PointsAt (letters (2 ^ 32 - 1)).toList (UInt32.ofNat (2 ^ 32 - 1)).toNat 1 0 := by
  have hfits : 2 ^ 32 - 1 < UInt32.size := by decide
  have hwrapped : UInt32.ofNat (2 ^ 32 - 1 + 1) = 0 := by decide
  rw [(length_letters _).1, UInt32.toNat_ofNat_of_lt' hfits]
  refine ⟨hfits, pointsAt_letters _, ?_, ?_⟩
  · rw [location_letters hfits, hwrapped]
  · -- A column is one more than the units before it
    rintro ⟨_, _, _, _, _, _, hcolumn⟩
    exact absurd hcolumn (Nat.succ_ne_zero _).symm

end CompileError

end MapChain
