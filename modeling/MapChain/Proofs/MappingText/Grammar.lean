import MapChain.Proofs.MappingText.Characters

/-!
# What a mapping text means

A text is cut at every semicolon into lines and each line at every comma into pieces. It is read
exactly when each piece that is not empty spells one, four or five numbers and all running sums have
32 bits, and each such piece becomes the segment that shows the sums up to it.

Main result: `decode_iff_spelled`.
-/

namespace MapChain.MappingText

/-- The pieces of a text that are not empty, with the index of their line. -/
def writtenPieces (text : String) : List (Nat × List Char) :=
  written (piecesFrom ',' ';' 0 text.toList)

/-! ## Segments -/

/-- An origin shows the sums of all pieces so far. The sum of the names counts only when its piece
has a fifth number. -/
structure ShowsOrigin (sofar : List Piece) (p : Piece) (o : SegmentOrigin) : Prop where
  source : (o.source.toNat : Int) = valueSum 1 sofar
  line : (o.line.toNat : Int) = valueSum 2 sofar
  column : (o.column.toNat : Int) = valueSum 3 sofar
  unnamed : p.values.length = 4 → o.name = none
  named : p.values.length = 5 → ∃ name, o.name = some name ∧ (name.toNat : Int) = valueSum 4 sofar

/-- A segment shows the sums of the pieces so far, the last of which is its own. -/
structure Shows (sofar : List Piece) (p : Piece) (s : Segment) : Prop where
  line : s.line.toNat = p.line
  column : (s.column.toNat : Int) = columnSum p.line sofar
  unmapped : p.values.length = 1 → s.origin = none
  mapped : p.values.length = 4 ∨ p.values.length = 5 →
    ∃ o, s.origin = some o ∧ ShowsOrigin sofar p o

/-- A number of 32 bits is kept as it is. -/
theorem Fits.toNat_ofNat {x : Int} (h : Fits x) : ((UInt32.ofNat x.toNat).toNat : Int) = x := by
  obtain ⟨hnonneg, hlt⟩ := h
  have hsmall : x.toNat < UInt32.size := by omega
  rw [UInt32.toNat_ofNat_of_lt' hsmall, Int.toNat_of_nonneg hnonneg]

/-- The segment of a piece shows the sums, since they have 32 bits. -/
theorem shows_segmentAt {sofar : List Piece} {p : Piece} (hfit : SumsFit p.line sofar)
    (hline : p.line < UInt32.size) : Shows sofar p (segmentAt sofar p) where
  line := UInt32.toNat_ofNat_of_lt' hline
  column := hfit.column.toNat_ofNat
  unmapped hlength := by
    simp [segmentAt, hlength]
  mapped hlength := by
    have hone : p.values.length ≠ 1 := by omega
    rw [segmentAt, if_neg hone]
    refine ⟨_, rfl, hfit.source.toNat_ofNat, hfit.sourceLine.toNat_ofNat,
      hfit.sourceColumn.toNat_ofNat, fun hfour => ?_, fun hfive => ?_⟩
    · simp [hfour]
    · exact ⟨_, if_neg (by omega), hfit.name.toNat_ofNat⟩

/-! ## Lines -/

theorem line_le_of_mem_piecesFrom {line : Nat} {text : List Char} {piece : Nat × List Char}
    (h : piece ∈ piecesFrom ',' ';' line text) : piece.1 ≤ line + text.count ';' := by
  induction text using cut_induction ',' ';' generalizing line with
  | piece w hw =>
    rw [piecesFrom_of_piece hw, List.mem_singleton] at h
    rw [h]
    exact Nat.le_add_right _ _
  | comma_cons w rest hw ih =>
    rw [piecesFrom_comma (by decide) hw, List.mem_cons] at h
    rw [List.count_append, List.count_cons]
    rcases h with rfl | h
    · exact Nat.le_add_right _ _
    · have := ih h
      omega
  | semicolon_cons w rest hw ih =>
    rw [piecesFrom_semicolon hw, List.mem_cons] at h
    rw [List.count_append, List.count_cons_self]
    rcases h with rfl | h
    · exact Nat.le_add_right _ _
    · have := ih h
      omega

/-- Every piece stands on a line that has 32 bits. -/
theorem line_lt_of_spelled {text : String} (hlines : text.toList.count ';' < UInt32.size)
    {pieces : List Piece} (hpieces : List.Forall₂ (Spelled letter) (writtenPieces text) pieces)
    {p : Piece} (hp : p ∈ pieces) : p.line < UInt32.size := by
  obtain ⟨k, hk, rfl⟩ := List.getElem_of_mem hp
  have hk' : k < (writtenPieces text).length := hpieces.length_eq ▸ hk
  have hspelled : Spelled letter (writtenPieces text)[k] pieces[k] :=
    List.forall₂_iff_get.mp hpieces |>.2 k hk' hk
  have hmem : (writtenPieces text)[k] ∈ piecesFrom ',' ';' 0 text.toList :=
    List.mem_of_mem_filter (List.getElem_mem hk')
  have hle := line_le_of_mem_piecesFrom hmem
  rw [hspelled.line]
  omega

theorem letter_injective : Function.Injective letter := by
  intro d e h
  have hsymbols : charSymbols (letter d) = charSymbols (letter e) := by rw [h]
  rw [charSymbols_letter, charSymbols_letter] at hsymbols
  injection hsymbols with hdigit
  injection hdigit

/-- The pieces of a text spell only one list of numbers each. -/
theorem spelled_rightUnique : Relator.RightUnique (List.Forall₂ (Spelled letter)) :=
  Relator.RightUnique.forall₂ fun _ _ _ => Spelled.unique letter_injective

/-! ## Texts -/

/-- **The grammar of mapping texts.** A text with fewer than `2 ^ 32` semicolons is read exactly when
its pieces spell one, four or five numbers each and the sums after each piece have 32 bits: the
generated column over the pieces of its line, everything else over all pieces so far. What is read
has one segment for each piece, in their order, and it shows these sums. -/
theorem decode_iff_spelled {text : String} (hlines : text.toList.count ';' < 2 ^ 32) :
    ((∃ segments, decode text = .ok segments) ↔
      ∃ pieces, List.Forall₂ (Spelled letter) (writtenPieces text) pieces ∧
        ∀ k p, pieces[k]? = some p → SumsFit p.line (pieces.take (k + 1))) ∧
    ∀ segments pieces, decode text = .ok segments →
      List.Forall₂ (Spelled letter) (writtenPieces text) pieces →
      segments.length = pieces.length ∧
        ∀ k p, pieces[k]? = some p →
          ∃ s, segments[k]? = some s ∧ Shows (pieces.take (k + 1)) p s := by
  refine ⟨?_, ?_⟩
  · constructor
    · intro h
      obtain ⟨segments, hdecode⟩ := h
      obtain ⟨pieces, hpieces, hfit, -⟩ := (decode_eq_ok_iff hlines).mp hdecode
      exact ⟨pieces, hpieces, by simpa using allFit_iff.mp hfit⟩
    · intro h
      obtain ⟨pieces, hpieces, hfit⟩ := h
      exact ⟨segmentsFrom [] pieces, (decode_eq_ok_iff hlines).mpr
        ⟨pieces, hpieces, allFit_iff.mpr (by simpa using hfit), rfl⟩⟩
  · intro segments pieces hdecode hpieces
    obtain ⟨pieces', hpieces', hfit, rfl⟩ := (decode_eq_ok_iff hlines).mp hdecode
    -- Pieces that spell the text are the ones it was read by
    obtain rfl := spelled_rightUnique hpieces hpieces'
    refine ⟨length_segmentsFrom, fun k p hp => ⟨segmentAt (pieces.take (k + 1)) p, ?_, ?_⟩⟩
    · rw [segmentsFrom_getElem?, hp]
      rfl
    · refine shows_segmentAt ?_ (line_lt_of_spelled hlines hpieces (List.mem_of_getElem? hp))
      exact allFit_iff.mp hfit k p hp

/-- Three pieces on the first and the third line, an empty one between them, and a column that goes
back on a line of its own. -/
theorem decode_iff_spelled_two_lines :
    "IAEKC,,MACD;;EAAFA".toList.count ';' < 2 ^ 32 ∧
      decode "IAEKC,,MACD;;EAAFA" = .ok
        [⟨0, 4, some ⟨0, 2, 5, some 1⟩⟩, ⟨0, 10, some ⟨0, 3, 4, none⟩⟩,
          ⟨2, 2, some ⟨0, 3, 2, some 1⟩⟩] ∧
      ∃ pieces, List.Forall₂ (Spelled letter) (writtenPieces "IAEKC,,MACD;;EAAFA") pieces ∧
        (∀ k p, pieces[k]? = some p → SumsFit p.line (pieces.take (k + 1))) ∧
        pieces.length = 3 := by
  have hlines : "IAEKC,,MACD;;EAAFA".toList.count ';' < 2 ^ 32 := by decide
  have hdecode : decode "IAEKC,,MACD;;EAAFA" = .ok
      [⟨0, 4, some ⟨0, 2, 5, some 1⟩⟩, ⟨0, 10, some ⟨0, 3, 4, none⟩⟩,
        ⟨2, 2, some ⟨0, 3, 2, some 1⟩⟩] := by
    decide +kernel
  obtain ⟨pieces, hpieces, hfit⟩ := (decode_iff_spelled hlines).1.mp ⟨_, hdecode⟩
  have hlength := ((decode_iff_spelled hlines).2 _ pieces hdecode hpieces).1
  exact ⟨hlines, hdecode, pieces, hpieces, hfit, hlength.symm⟩

end MapChain.MappingText
