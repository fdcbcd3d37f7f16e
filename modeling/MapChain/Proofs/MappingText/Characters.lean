import MapChain.Proofs.Bytes
import MapChain.Proofs.MappingText.Reading

/-!
# The characters of a mapping text

The reader takes bytes. This module says what they are in terms of characters, so that a text can be
cut and spelled as it is written.

## Layers

- **One character**: `reads_charSymbols` tells digits, separators and everything else apart.
- **Pieces**: cutting symbols is cutting characters (`piecesFrom_flatMap`), and a piece spells the
  same numbers either way (`spelled_flatMap_iff`).
- **Texts**: `decode_eq_ok_iff` is the meaning of a text in terms of its characters.
-/

namespace MapChain.MappingText

/-! ## One character -/

/-- The digits of a number in their order. -/
def alphabet : List Char :=
  "ABCDEFGHIJKLMNOPQRSTUVWXYZabcdefghijklmnopqrstuvwxyz0123456789+/".toList

/-- The character of a digit. -/
def letter (d : Sextet) : Char := alphabet.getD d.val 'A'

/-- The symbols of one character. -/
def charSymbols (c : Char) : List Symbol := (String.utf8EncodeChar c).map Symbol.ofByte

/-- The symbols of a text are those of its characters. -/
theorem symbols_eq_flatMap (text : String) : symbols text = text.toList.flatMap charSymbols := by
  rw [symbols, toUTF8_toList, List.map_flatMap]
  rfl

/-- What a character may be for the reader. -/
inductive Reads : Char → List Symbol → Prop
  | letter (d : Sextet) : Reads (letter d) [.digit d]
  | comma : Reads ',' [.comma]
  | semicolon : Reads ';' [.semicolon]
  | other {c : Char} {bytes : List UInt8} (hletter : ∀ d, letter d ≠ c) (hcomma : c ≠ ',')
      (hsemicolon : c ≠ ';') (hbytes : bytes ≠ []) : Reads c (bytes.map .other)

theorem toByte_ofByte (b : UInt8) : (Symbol.ofByte b).toByte = b := by
  have h : ∀ n : Fin 256, (Symbol.ofByte (UInt8.ofNat n)).toByte = UInt8.ofNat n := by
    decide +kernel
  simpa using h ⟨b.toNat, b.toNat_lt⟩

theorem symbolChar_digit (d : Sextet) : symbolChar (.digit d) = letter d := by
  revert d
  decide +kernel

theorem charSymbols_letter (d : Sextet) : charSymbols (letter d) = [.digit d] := by
  revert d
  decide +kernel

theorem charSymbols_comma : charSymbols ',' = [.comma] := by
  decide

theorem charSymbols_semicolon : charSymbols ';' = [.semicolon] := by
  decide

theorem charSymbols_ne_nil (c : Char) : charSymbols c ≠ [] := by
  simp [charSymbols]

theorem ofByte_of_le {b : UInt8} (h : 128 ≤ b.toNat) : Symbol.ofByte b = .other b := by
  have hcomma : b ≠ 44 := by
    rintro rfl
    exact absurd h (by decide)
  have hsemicolon : b ≠ 59 := by
    rintro rfl
    exact absurd h (by decide)
  have hsextet : Symbol.sextet? b = none := by
    rw [Symbol.sextet?, dif_neg (by omega), dif_neg (by omega), dif_neg (by omega),
      if_neg (by omega), if_neg (by omega)]
  rw [Symbol.ofByte, hsextet]
  simp [hcomma, hsemicolon]

/-- **Every character** is a letter, a separator, or nothing that the reader takes. -/
theorem reads_charSymbols (c : Char) : Reads c (charSymbols c) := by
  -- Symbols that are nothing the reader takes can only come from another character
  have hother (bytes : List UInt8) (h : charSymbols c = bytes.map .other) :
      Reads c (charSymbols c) := by
    rw [h]
    refine .other ?_ ?_ ?_ ?_
    · rintro d rfl
      cases bytes <;> simp [charSymbols_letter] at h
    · rintro rfl
      cases bytes <;> simp [charSymbols_comma] at h
    · rintro rfl
      cases bytes <;> simp [charSymbols_semicolon] at h
    · rintro rfl
      exact charSymbols_ne_nil c h
  by_cases hc : c.toNat < 128
  · -- ASCII: one byte, and its symbol gives the character back
    generalize hsymbol : Symbol.ofByte (UInt8.ofNat c.toNat) = symbol
    have hsymbols : charSymbols c = [symbol] := by
      rw [charSymbols, utf8EncodeChar_of_lt hc, List.map_singleton, hsymbol]
    have hchar : c = symbolChar symbol := by
      rw [symbolChar, ← hsymbol, toByte_ofByte, UInt8.toNat_ofNat', Nat.mod_eq_of_lt (by omega),
        Char.ofNat_toNat]
    cases symbol with
    | digit d =>
      rw [hsymbols, hchar, symbolChar_digit]
      exact .letter d
    | comma =>
      rw [hsymbols, hchar]
      exact .comma
    | semicolon =>
      rw [hsymbols, hchar]
      exact .semicolon
    | other b => exact hother [b] hsymbols
  · -- Any other character: only bytes that the reader does not take
    exact hother _ (List.map_congr_left fun b hb =>
      ofByte_of_le (le_of_mem_utf8EncodeChar (Nat.not_lt.mp hc) hb))

/-- Symbols that start with a digit are those of its letter and of what follows. -/
theorem charSymbols_append_eq_digit_cons_iff {c : Char} {d : Sextet} {rest rest' : List Symbol} :
    charSymbols c ++ rest = .digit d :: rest' ↔ c = letter d ∧ rest = rest' := by
  constructor
  · intro h
    -- Only a letter has symbols that start with a digit
    generalize hsymbols : charSymbols c = symbols at h
    have hc : Reads c symbols := hsymbols ▸ reads_charSymbols c
    cases hc with
    | letter d' =>
      obtain ⟨hd, hrest⟩ := List.cons.inj h
      cases hd
      exact ⟨rfl, hrest⟩
    | comma => cases (List.cons.inj h).1
    | semicolon => cases (List.cons.inj h).1
    | @other _ bytes _ _ _ hbytes =>
      obtain ⟨b, more, rfl⟩ := List.exists_cons_of_ne_nil hbytes
      cases (List.cons.inj h).1
  · intro hyp
    obtain ⟨rfl, rfl⟩ := hyp
    rw [charSymbols_letter, List.singleton_append]

/-- Only a comma is read as one. -/
theorem comma_mem_charSymbols_iff {c : Char} : .comma ∈ charSymbols c ↔ c = ',' := by
  constructor
  · intro h
    generalize hsymbols : charSymbols c = symbols at h
    have hc : Reads c symbols := hsymbols ▸ reads_charSymbols c
    cases hc with
    | comma => rfl
    | letter d => simp at h
    | semicolon => simp at h
    | other => simp at h
  · rintro rfl
    simp [charSymbols_comma]

/-- Only a semicolon is read as one, and as only one. -/
theorem count_semicolon_charSymbols (c : Char) :
    (charSymbols c).count .semicolon = if c = ';' then 1 else 0 := by
  generalize hsymbols : charSymbols c = symbols
  have hc : Reads c symbols := hsymbols ▸ reads_charSymbols c
  cases hc with
  | letter d =>
    rw [if_neg, List.count_singleton]
    · rfl
    · revert d
      decide +kernel
  | comma => decide
  | semicolon => decide
  | other _ _ hsemicolon _ =>
    rw [if_neg hsemicolon, List.count_eq_zero]
    simp

/-! ## Pieces -/

/-- Characters whose symbols are digits are the letters of these digits. -/
theorem flatMap_charSymbols_eq_iff {text : List Char} {digits : List Sextet} :
    text.flatMap charSymbols = digits.map .digit ↔ text = digits.map letter := by
  induction text generalizing digits with
  | nil => cases digits <;> simp
  | cons c text ih =>
    rw [List.flatMap_cons]
    cases digits with
    | nil => simp [charSymbols_ne_nil]
    | cons d digits =>
      rw [List.map_cons, charSymbols_append_eq_digit_cons_iff, ih, List.map_cons, List.cons.injEq]

theorem count_semicolon_flatMap (text : List Char) :
    (text.flatMap charSymbols).count .semicolon = text.count ';' := by
  induction text with
  | nil => rfl
  | cons c text ih =>
    rw [List.flatMap_cons, List.count_append, ih, count_semicolon_charSymbols, List.count_cons,
      Nat.add_comm]
    simp

theorem isPiece_flatMap {w : List Char} (hw : IsPiece ',' ';' w) :
    IsPiece .comma .semicolon (w.flatMap charSymbols) := by
  constructor
  · intro hmem
    obtain ⟨c, hc, hcomma⟩ := List.mem_flatMap.mp hmem
    exact hw.1 (comma_mem_charSymbols_iff.mp hcomma ▸ hc)
  · rw [← List.count_eq_zero, count_semicolon_flatMap, List.count_eq_zero]
    exact hw.2

/-- Cutting the symbols of a text is cutting its characters. -/
theorem piecesFrom_flatMap (line : Nat) (text : List Char) :
    piecesFrom .comma .semicolon line (text.flatMap charSymbols) =
      (piecesFrom ',' ';' line text).map (Prod.map id (List.flatMap charSymbols)) := by
  induction text using cut_induction ',' ';' generalizing line with
  | piece w hw =>
    rw [piecesFrom_of_piece (isPiece_flatMap hw), piecesFrom_of_piece hw]
    rfl
  | comma_cons w rest hw ih =>
    rw [piecesFrom_comma (by decide) hw, List.flatMap_append, List.flatMap_cons,
      charSymbols_comma, List.singleton_append,
      piecesFrom_comma (by decide) (isPiece_flatMap hw), ih]
    rfl
  | semicolon_cons w rest hw ih =>
    rw [piecesFrom_semicolon hw, List.flatMap_append, List.flatMap_cons, charSymbols_semicolon,
      List.singleton_append, piecesFrom_semicolon (isPiece_flatMap hw), ih]
    rfl

/-- A piece spells the same numbers in characters and in symbols. -/
theorem spelled_flatMap_iff {text : Nat × List Char} {p : Piece} :
    Spelled .digit (Prod.map id (List.flatMap charSymbols) text) p ↔ Spelled letter text p := by
  constructor
  · intro h
    obtain ⟨hline, hlength, digits, hdigits, hspells⟩ := h
    exact ⟨hline, hlength, digits, flatMap_charSymbols_eq_iff.mp hdigits, hspells⟩
  · intro h
    obtain ⟨hline, hlength, digits, hdigits, hspells⟩ := h
    exact ⟨hline, hlength, digits, flatMap_charSymbols_eq_iff.mpr hdigits, hspells⟩

theorem written_map (cut : List (Nat × List Char)) :
    written (cut.map (Prod.map id (List.flatMap charSymbols))) =
      (written cut).map (Prod.map id (List.flatMap charSymbols)) := by
  rw [written, written, List.filter_map]
  congr 1
  apply List.filter_congr
  intro piece _
  obtain ⟨line, w⟩ := piece
  cases w with
  | nil => rfl
  | cons c text => simp [charSymbols_ne_nil]

theorem means_map_iff {sofar : List Piece} {cut : List (Nat × List Char)}
    {segments : List Segment} :
    Means .digit sofar (cut.map (Prod.map id (List.flatMap charSymbols))) segments ↔
      Means letter sofar cut segments := by
  simp only [Means, written_map, List.forall₂_map_left_iff, spelled_flatMap_iff]

/-! ## Texts -/

/-- **Reading a text** succeeds exactly when its pieces have a meaning, and with that. -/
theorem decode_eq_ok_iff {text : String} {segments : List Segment}
    (hlines : text.toList.count ';' < UInt32.size) :
    decode text = .ok segments ↔ Means letter [] (piecesFrom ',' ';' 0 text.toList) segments := by
  have hfit : SumsFit 0 [] := by
    constructor <;> exact ⟨le_rfl, by decide⟩
  rw [decode, Reader.start, ← totalsAfter_nil, symbols_eq_flatMap,
    run_eq_ok_iff hfit (by simp) (by simpa [count_semicolon_flatMap] using hlines),
    piecesFrom_flatMap, means_map_iff]

end MapChain.MappingText
