import MapChain.Proofs.MappingText.Characters

/-!
# Reading what was written

Segments whose lines do not go back are read back from the text that writes them.

## Layers

- **Totals**: `advance_relative` undoes the relative numbers of a segment.
- **Runs**: `run_fields` reads the numbers of a segment, `run_skip` the semicolons in front of it, and
  `run_encodeFrom` everything from one segment on, by induction on the segments behind it.
- **Texts**: `symbols_encode` gives back the symbols, and `decode_encode` the segments.
-/

namespace MapChain.MappingText

/-! ## Totals -/

/-- Totals that are made of 32-bit numbers. -/
structure Totals.Small (t : Totals) : Prop where
  column : t.column < UInt32.size
  source : t.source < UInt32.size
  sourceLine : t.sourceLine < UInt32.size
  sourceColumn : t.sourceColumn < UInt32.size
  name : t.name < UInt32.size

theorem Totals.Small.start : Totals.start.Small := by
  constructor <;> decide

theorem Totals.Small.move {t : Totals} (h : t.Small) (s : Segment) : (t.move s).Small := by
  obtain ⟨line, column, _ | ⟨source, sline, scolumn, _ | name⟩⟩ := s
  · exact { h with column := column.toNat_lt }
  · exact ⟨column.toNat_lt, source.toNat_lt, sline.toNat_lt, scolumn.toNat_lt, h.name⟩
  · exact ⟨column.toNat_lt, source.toNat_lt, sline.toNat_lt, scolumn.toNat_lt, name.toNat_lt⟩

/-- The totals at the start of a later line, and on their own line as they are. -/
def Totals.toLine (t : Totals) (line : Nat) : Totals :=
  if t.line < line then { t with line, column := 0 } else t

theorem Totals.Small.toLine {t : Totals} (h : t.Small) (line : Nat) : (t.toLine line).Small := by
  rw [Totals.toLine]
  split
  · exact { h with column := by simp [UInt32.size] }
  · exact h

theorem Totals.toLine_line {t : Totals} {line : Nat} (h : t.line ≤ line) :
    (t.toLine line).line = line := by
  rw [Totals.toLine]
  split
  · rfl
  · exact Nat.le_antisymm h (by omega)

theorem Totals.toLine_nextLine {t : Totals} {line : Nat} (h : t.line < line) :
    Totals.toLine { t with line := t.line + 1, column := 0 } line = t.toLine line := by
  rw [Totals.toLine, Totals.toLine, if_pos h]
  split
  · rfl
  · rw [show t.line + 1 = line by simp at *; omega]

theorem Totals.move_line (t : Totals) (s : Segment) : (t.move s).line = t.line := by
  obtain ⟨line, column, _ | ⟨source, sline, scolumn, _ | name⟩⟩ := s <;> rfl

theorem natAbs_lt_of_mem_relative {t : Totals} (h : t.Small) {s : Segment} {v : Int}
    (hv : v ∈ t.relative s) : v.natAbs < 2 ^ 63 := by
  have hdelta : ∀ (x : UInt32) (total : Nat), total < UInt32.size →
      ((x.toNat : Int) - total).natAbs < 2 ^ 63 := by
    intro x total htotal
    have hx := x.toNat_lt
    simp only [UInt32.size] at htotal
    omega
  obtain ⟨line, column, _ | ⟨source, sline, scolumn, _ | name⟩⟩ := s
  · simp only [Totals.relative, List.mem_singleton] at hv
    rw [hv]
    exact hdelta _ _ h.column
  · simp only [Totals.relative, List.append_nil, List.mem_cons, List.not_mem_nil, or_false] at hv
    rcases hv with rfl | rfl | rfl | rfl
    · exact hdelta _ _ h.column
    · exact hdelta _ _ h.source
    · exact hdelta _ _ h.sourceLine
    · exact hdelta _ _ h.sourceColumn
  · simp only [Totals.relative, List.cons_append, List.nil_append, List.mem_cons,
      List.not_mem_nil, or_false] at hv
    rcases hv with rfl | rfl | rfl | rfl | rfl
    · exact hdelta _ _ h.column
    · exact hdelta _ _ h.source
    · exact hdelta _ _ h.sourceLine
    · exact hdelta _ _ h.sourceColumn
    · exact hdelta _ _ h.name

theorem length_relative_le (t : Totals) (s : Segment) : (t.relative s).length ≤ maxFields := by
  obtain ⟨line, column, _ | ⟨source, sline, scolumn, _ | name⟩⟩ := s <;>
    simp [Totals.relative, maxFields]

/-- Adding a difference to a total gives the number it is the difference of. -/
theorem add_difference (field : SegmentField) (total : Nat) (x : UInt32) :
    add field total ((x.toNat : Int) - total) = .ok x.toNat := by
  have hx : x.toNat < UInt32.size := x.toNat_lt
  have hsum : (total : Int) + (x.toNat - total) = x.toNat := by omega
  rw [add, hsum, if_neg (by omega), if_neg (by omega), Int.toNat_natCast]

/-- **Relative numbers are undone** by adding them to the totals they are relative to. -/
theorem advance_relative {t : Totals} {s : Segment} (hline : t.line = s.line.toNat) :
    t.advance (t.relative s) = .ok (some s, t.move s) := by
  -- Without an origin, with one, and with a name
  obtain ⟨line, column, _ | ⟨source, sline, scolumn, _ | name⟩⟩ := s
  · simp [Totals.advance, Totals.relative, Totals.move, Totals.segment, add_difference, hline,
      pure, Except.pure]
  · simp [Totals.advance, Totals.relative, Totals.move, Totals.moveOrigin, Totals.segment, add_difference,
      hline, pure, Except.pure]
  · simp [Totals.advance, Totals.relative, Totals.move, Totals.moveOrigin, Totals.segment, add_difference,
      hline, pure, Except.pure]

/-! ## Runs -/

/-- The numbers of a segment are read back. -/
theorem run_fields {t : Totals} {fields : List Int} {rest : List Symbol} {segments : List Segment}
    (hsmall : ∀ v ∈ fields, v.natAbs < 2 ^ 63) (hlength : fields.length ≤ maxFields) (i j : Nat)
    (hrun : Reader.run ⟨t, fields, none⟩ j rest = .ok segments) :
    Reader.run ⟨t, [], none⟩ i (encodeFields fields ++ rest) = .ok segments := by
  have hdigits : encodeFields fields = (fields.flatMap Vlq.encode).map .digit := by
    rw [encodeFields, List.map_flatMap]
  rw [hdigits]
  exact Reader.run_of_spellsAll (spellsAll_encode hsmall) (by simpa using hlength) i j hrun

/-- Semicolons lead to a later line. -/
theorem run_skip {t : Totals} {line : Nat} {rest : List Symbol} {segments : List Segment}
    (hle : t.line ≤ line) (hline : line < UInt32.size) (i j : Nat)
    (hrun : Reader.run ⟨t.toLine line, [], none⟩ j rest = .ok segments) :
    Reader.run ⟨t, [], none⟩ i (List.replicate (line - t.line) .semicolon ++ rest) =
      .ok segments := by
  induction hn : line - t.line generalizing t i with
  | zero =>
    rw [Totals.toLine, if_neg (by omega)] at hrun
    exact Reader.run_offset hrun i
  | succ n ih =>
    -- The first semicolon closes an empty piece
    rw [List.replicate_succ, List.cons_append, Reader.run_semicolon i (i + 1)]
    refine ⟨none, t, rfl, segments, ⟨{ t with line := t.line + 1, column := 0 }, ?_, ?_⟩, rfl⟩
    · rw [Totals.nextLine, if_pos (by omega)]
    · refine ih (by show t.line + 1 ≤ line; omega) (i + 1) ?_
        (by show line - (t.line + 1) = n; omega)
      rw [Totals.toLine_nextLine (by omega)]
      exact hrun

/-- What is written for a segment: semicolons up to its line, or else a comma if it is not the first
one there; then its numbers. -/
theorem encodeFrom_cons (t : Totals) (first : Bool) (s : Segment) (segments : List Segment) :
    encodeFrom t first (s :: segments) =
      List.replicate (s.line.toNat - t.line) .semicolon ++
        ((if first = true ∨ t.line < s.line.toNat then [] else [.comma]) ++
          (encodeFields ((t.toLine s.line.toNat).relative s) ++
            encodeFrom ((t.toLine s.line.toNat).move s) false segments)) := by
  have hskipped : 0 < s.line.toNat - t.line ↔ t.line < s.line.toNat := by omega
  rw [encodeFrom, Totals.toLine]
  simp only [hskipped, Bool.or_eq_true, decide_eq_true_eq, List.append_assoc]

/-- **From one segment on**, what is written is read back. -/
theorem run_encodeFrom {t : Totals} {s : Segment} {segments : List Segment} (ht : t.Small)
    (hline : t.line = s.line.toNat)
    (hsorted : (s :: segments).Pairwise fun a b => a.line.toNat ≤ b.line.toNat) (i : Nat) :
    Reader.run ⟨t, [], none⟩ i
      (encodeFields (t.relative s) ++ encodeFrom (t.move s) false segments) =
        .ok (s :: segments) := by
  -- The numbers of a segment are read while the segment behind it decides which separator follows
  induction segments generalizing t s i with
  | nil =>
    refine run_fields (fun v => natAbs_lt_of_mem_relative ht) (length_relative_le t s)
      i 0 ?_
    rw [encodeFrom, Reader.run_end]
    exact ⟨some s, t.move s, advance_relative hline, rfl⟩
  | cons s' segments ih =>
    refine run_fields (fun v => natAbs_lt_of_mem_relative ht) (length_relative_le t s)
      i 0 ?_
    have hle : (t.move s).line ≤ s'.line.toNat := by
      rw [Totals.move_line, hline]
      exact (List.pairwise_cons.mp hsorted).1 s' List.mem_cons_self
    have hlt : s'.line.toNat < UInt32.size := s'.line.toNat_lt
    have hrest := ih ((ht.move s).toLine s'.line.toNat) (Totals.toLine_line hle)
      (List.pairwise_cons.mp hsorted).2 0
    rw [encodeFrom_cons]
    rcases hle.eq_or_lt with heq | hlater
    · -- On the same line a comma stands between the two
      rw [heq, Nat.sub_self, List.replicate_zero, List.nil_append, if_neg (by simp),
        List.singleton_append, Reader.run_comma 0 0, ← heq]
      rw [Totals.toLine, if_neg (by omega)] at hrest ⊢
      exact ⟨some s, t.move s, advance_relative hline, s' :: segments, hrest, rfl⟩
    · -- On a later line the first semicolon closes the segment, and the others are skipped
      obtain ⟨n, hskipped⟩ : ∃ n, s'.line.toNat - (t.move s).line = n + 1 :=
        ⟨s'.line.toNat - (t.move s).line - 1, by omega⟩
      rw [hskipped, List.replicate_succ, List.cons_append, if_pos (.inr hlater), List.nil_append,
        Reader.run_semicolon 0 0]
      refine ⟨some s, t.move s, advance_relative hline, s' :: segments,
        ⟨{ t.move s with line := (t.move s).line + 1, column := 0 }, ?_, ?_⟩, rfl⟩
      · rw [Totals.nextLine, if_pos (by omega)]
      · rw [show n = s'.line.toNat - ((t.move s).line + 1) by omega]
        refine run_skip (by show (t.move s).line + 1 ≤ _; omega) hlt 0 0 ?_
        rw [Totals.toLine_nextLine hlater]
        exact hrest

/-! ## Texts -/

theorem other_notMem_encodeFrom {t : Totals} {first : Bool} {segments : List Segment}
    (b : UInt8) : .other b ∉ encodeFrom t first segments := by
  induction segments generalizing t first with
  | nil => simp [encodeFrom]
  | cons s segments ih =>
    rw [encodeFrom_cons]
    simp only [List.mem_append, List.mem_replicate, not_or]
    refine ⟨by simp, by split <;> simp, by simp [encodeFields], ih⟩

theorem charSymbols_symbolChar {s : Symbol} (hs : ∀ b, s ≠ .other b) :
    charSymbols (symbolChar s) = [s] := by
  cases s with
  | digit d => rw [symbolChar_digit, charSymbols_letter]
  | comma => exact charSymbols_comma
  | semicolon => exact charSymbols_semicolon
  | other b => exact absurd rfl (hs b)

/-- The symbols of what was written are those that were written. -/
theorem symbols_encode (segments : List Segment) :
    symbols (encode segments) = encodeFrom .start true segments := by
  have hsymbols : ∀ s ∈ encodeFrom .start true segments, charSymbols (symbolChar s) = [s] :=
    fun s hs => charSymbols_symbolChar fun b hb => other_notMem_encodeFrom b (hb ▸ hs)
  rw [symbols_eq_flatMap, encode, String.toList_ofList, List.flatMap_map,
    List.flatMap_congr hsymbols, List.flatMap_singleton']

/-- **Segments are read back** from what was written, as long as their lines do not go back. -/
theorem decode_encode {segments : List Segment}
    (hsorted : segments.Pairwise fun a b => a.line.toNat ≤ b.line.toNat) :
    decode (encode segments) = .ok segments := by
  rw [decode, symbols_encode]
  cases segments with
  | nil => rfl
  | cons s segments =>
    rw [encodeFrom_cons, if_pos (.inl rfl), List.nil_append]
    refine run_skip (Nat.zero_le _) s.line.toNat_lt 0 0 ?_
    exact run_encodeFrom (Totals.Small.start.toLine _) (Totals.toLine_line (Nat.zero_le _))
      hsorted 0

end MapChain.MappingText
