import MapChain.Proofs.MappingText.Characters

/-!
# Where a fault is reported

A text that cannot be read is refused at the symbol that shows the fault, or at its end. What stands
in front of the segment at fault can be read, and what stands behind the symbol does not matter.

## Layers

- **Symbols**: a fault comes from the first symbol or from the rest (`run_cons_eq_error_iff`), so it
  is reported within the text (`bounds_of_run`).
- **What follows**: a fault inside a text is that of every text that agrees up to it
  (`run_eq_error_of_agree`).
- **What precedes**: everything up to a separator in front of a fault can be read
  (`exists_run_of_error`).
- **Texts**: every offset has a last separator in front of it, or none (`exists_cutBefore`).
- **Statement**: `decode_error_located`.
-/

namespace MapChain

/-- A comma or a semicolon. -/
def Symbol.IsSeparator (s : Symbol) : Prop := s = .comma ∨ s = .semicolon

namespace MappingText

namespace Reader

variable {r r' : Reader} {i o : Nat} {f : MappingFault}

/-! ## Symbols -/

/-- A fault comes from the first symbol, or from what follows it. -/
theorem run_cons_eq_error_iff {s : Symbol} {text : List Symbol} :
    r.run i (s :: text) = .error (o, f) ↔
      r.step s = .error f ∧ o = i ∨
        ∃ segment r', r.step s = .ok (segment, r') ∧ r'.run (i + 1) text = .error (o, f) := by
  rw [run]
  cases hstep : r.step s with
  | error g => simp [and_comm, eq_comm]
  | ok result =>
    obtain ⟨segment, r'⟩ := result
    cases hrun : r'.run (i + 1) text with
    | error e => simp [hrun]
    | ok segments => simp [hrun]

/-- A fault is reported within the text or at its end. -/
theorem bounds_of_run {text : List Symbol} (h : r.run i text = .error (o, f)) :
    i ≤ o ∧ o ≤ i + text.length := by
  induction text generalizing r i with
  | nil =>
    rw [run] at h
    cases hfinish : r.finish with
    | error g =>
      simp only [hfinish, Except.error.injEq, Prod.mk.injEq] at h
      exact ⟨h.1.le, h.1.ge⟩
    | ok segment => simp [hfinish] at h
  | cons s text ih =>
    rw [List.length_cons]
    rcases run_cons_eq_error_iff.mp h with ⟨-, rfl⟩ | ⟨segment, r', -, hrest⟩
    · omega
    · have := ih hrest
      omega

/-! ## What follows -/

/-- **What follows a fault does not matter**: a text that agrees with another one up to the symbol
that shows a fault is refused like it. -/
theorem run_eq_error_of_agree {text other : List Symbol} (h : r.run i text = .error (o, f))
    (hinside : o < i + text.length) (hagree : ∀ k ≤ o - i, other[k]? = text[k]?) :
    r.run i other = .error (o, f) := by
  -- On the text in front of the fault, which the other one starts with
  induction text generalizing r i other with
  | nil =>
    have := (bounds_of_run h).1
    rw [List.length_nil] at hinside
    omega
  | cons s text ih =>
    obtain ⟨rest, rfl⟩ : ∃ rest, other = s :: rest := by
      cases other with
      | nil => simpa using hagree 0 (Nat.zero_le _)
      | cons s' rest =>
        obtain rfl : s' = s := by simpa using hagree 0 (Nat.zero_le _)
        exact ⟨rest, rfl⟩
    rw [run_cons_eq_error_iff] at h ⊢
    refine h.imp_right ?_
    rintro ⟨segment, r', hstep, hrest⟩
    have hle := (bounds_of_run hrest).1
    refine ⟨segment, r', hstep, ih hrest (by simp at hinside; omega) fun k hk => ?_⟩
    simpa using hagree (k + 1) (by omega)

/-! ## What precedes -/

/-- A reader that is between two segments. -/
def Closed (r : Reader) : Prop := r.fields = [] ∧ r.current = none

theorem closed_of_step {s : Symbol} {segment : Option Segment} (hs : s.IsSeparator)
    (hstep : r.step s = .ok (segment, r')) : r'.Closed := by
  obtain ⟨totals, fields, current⟩ := r
  cases current with
  | some p => rcases hs with rfl | rfl <;> cases hstep
  | none =>
    rcases hs with rfl | rfl
    · obtain ⟨t, -, rfl⟩ := close_eq_ok_iff.mp hstep
      exact ⟨rfl, rfl⟩
    · simp only [step, bind_eq_ok_iff, pure_eq_ok_iff, Prod.exists, Prod.mk.injEq] at hstep
      obtain ⟨_, closed, hclose, t, -, -, rfl⟩ := hstep
      obtain ⟨t', -, rfl⟩ := close_eq_ok_iff.mp hclose
      exact ⟨rfl, rfl⟩

/-- Between two segments a text can end. -/
theorem Closed.run_nil (h : r.Closed) (i : Nat) : r.run i [] = .ok [] := by
  obtain ⟨totals, fields, current⟩ := r
  obtain ⟨rfl, rfl⟩ := h
  rfl

/-- **What precedes a fault can be read**, up to any separator in front of it. -/
theorem exists_run_of_error {front rest : List Symbol} (hclosed : front = [] → r.Closed)
    (hlast : ∀ s ∈ front.getLast?, s.IsSeparator)
    (h : r.run i (front ++ rest) = .error (o, f)) (hle : i + front.length ≤ o) :
    ∃ segments, r.run i front = .ok segments := by
  induction front generalizing r i with
  | nil => exact ⟨[], (hclosed rfl).run_nil i⟩
  | cons s front ih =>
    rw [List.length_cons] at hle
    rw [List.cons_append, run_cons_eq_error_iff] at h
    -- The fault lies behind the first symbol, so this one is taken
    rcases h with ⟨-, rfl⟩ | ⟨segment, r', hstep, hrest⟩
    · omega
    have hclosed' : front = [] → r'.Closed := by
      rintro rfl
      exact closed_of_step (hlast s rfl) hstep
    have hlast' : ∀ s ∈ front.getLast?, s.IsSeparator := by
      cases front with
      | nil => simp
      | cons s' front => simpa using hlast
    obtain ⟨segments, hrun⟩ := ih hclosed' hlast' hrest (by omega)
    exact ⟨segment.toList ++ segments, (run_cons_eq_ok_iff i (i + 1)).mpr
      ⟨segment, r', segments, hstep, hrun, rfl⟩⟩

end Reader

/-! ## Texts -/

/-- The UTF-8 bytes of characters. -/
def bytes (text : List Char) : List UInt8 := text.flatMap String.utf8EncodeChar

/-- The front of a text up to its last comma or semicolon before a byte offset; it is empty where
there is none. -/
structure CutBefore (text : List Char) (offset : Nat) (front : List Char) : Prop where
  starts : ∃ rest, text = front ++ rest
  length_le : (bytes front).length ≤ offset
  ends : ∀ c ∈ front.getLast?, c = ',' ∨ c = ';'
  /-- Neither separator has its byte between the end of the front and the offset. -/
  last : ∀ i b, (bytes front).length ≤ i → i < offset → (bytes text)[i]? = some b → b ≠ 44 ∧ b ≠ 59

theorem symbols_eq_map_bytes (text : String) : symbols text = (bytes text.toList).map .ofByte := by
  rw [symbols, toUTF8_toList, bytes]

theorem length_symbols (text : String) : (symbols text).length = text.utf8ByteSize := by
  rw [symbols, List.length_map, byteArray_toList, Array.length_toList]
  rfl

/-- No byte of a piece is that of a separator. -/
theorem IsPiece.ne_of_mem_bytes {w : List Char} (hw : IsPiece ',' ';' w) {b : UInt8}
    (hb : b ∈ bytes w) : b ≠ 44 ∧ b ≠ 59 := by
  have hsymbols := isPiece_flatMap hw
  have hmem : Symbol.ofByte b ∈ w.flatMap charSymbols := by
    obtain ⟨c, hc, hbyte⟩ := List.mem_flatMap.mp hb
    exact List.mem_flatMap.mpr ⟨c, hc, List.mem_map_of_mem hbyte⟩
  constructor
  · rintro rfl
    exact hsymbols.1 hmem
  · rintro rfl
    exact hsymbols.2 hmem

/-- A separator is one byte. -/
theorem exists_byte_of_separator {c : Char} (hc : c = ',' ∨ c = ';') :
    ∃ b, String.utf8EncodeChar c = [b] ∧ (Symbol.ofByte b).IsSeparator := by
  rcases hc with rfl | rfl
  · exact ⟨44, by decide, .inl (by decide)⟩
  · exact ⟨59, by decide, .inr (by decide)⟩

/-- The bytes of a text behind a piece and its separator. -/
theorem bytes_append_cons (w rest : List Char) {c : Char} (hc : c = ',' ∨ c = ';') :
    ∃ b, bytes (w ++ c :: rest) = bytes w ++ b :: bytes rest := by
  obtain ⟨b, hb, -⟩ := exists_byte_of_separator hc
  exact ⟨b, by simp [bytes, hb]⟩

/-- Before an offset within the first piece there is no separator. -/
theorem CutBefore.nil {w rest : List Char} {c : Char} {offset : Nat} (hc : c = ',' ∨ c = ';')
    (hw : IsPiece ',' ';' w) (h : offset ≤ (bytes w).length) :
    CutBefore (w ++ c :: rest) offset [] where
  starts := ⟨_, rfl⟩
  length_le := Nat.zero_le _
  ends := by simp
  last i b _ hi hb := by
    obtain ⟨s, hbytes⟩ := bytes_append_cons w rest hc
    rw [hbytes, List.getElem?_append_left (by omega)] at hb
    exact hw.ne_of_mem_bytes (List.mem_of_getElem? hb)

/-- Before an offset behind the first piece and its separator, the front is theirs and that of what
follows them. -/
theorem CutBefore.append_cons {w rest front : List Char} {c : Char} {offset : Nat}
    (hc : c = ',' ∨ c = ';') (h : CutBefore rest offset front) :
    CutBefore (w ++ c :: rest) ((bytes w).length + 1 + offset) (w ++ c :: front) where
  starts := by
    obtain ⟨rest', rfl⟩ := h.starts
    exact ⟨rest', by simp⟩
  length_le := by
    obtain ⟨s, hbytes⟩ := bytes_append_cons w front hc
    have := h.length_le
    simp only [hbytes, List.length_append, List.length_cons]
    omega
  ends := by
    intro d hd
    cases front with
    | nil =>
      rw [List.getLast?_concat, Option.mem_some] at hd
      exact hd ▸ hc
    | cons e front => exact h.ends d (by simpa using hd)
  last i b hi hlt hb := by
    obtain ⟨s, hfront⟩ := bytes_append_cons w front hc
    obtain ⟨s', hrest⟩ := bytes_append_cons w rest hc
    simp only [hfront, List.length_append, List.length_cons] at hi
    -- The byte lies behind the separator, where the rest has it
    obtain ⟨j, rfl⟩ : ∃ j, i = (bytes w).length + (j + 1) :=
      ⟨i - (bytes w).length - 1, by omega⟩
    rw [hrest, List.getElem?_append_right (by omega), Nat.add_sub_cancel_left,
      List.getElem?_cons_succ] at hb
    exact h.last j b (by omega) (by omega) hb

/-- **Every offset has a last separator in front of it**, or none. -/
theorem exists_cutBefore (text : List Char) (offset : Nat) :
    ∃ front, CutBefore text offset front := by
  -- Piece by piece: the offset lies within the first one, or behind its separator
  have hcons : ∀ w rest c, c = ',' ∨ c = ';' → IsPiece ',' ';' w →
      (∀ offset, ∃ front, CutBefore rest offset front) →
      ∀ offset, ∃ front, CutBefore (w ++ c :: rest) offset front := by
    intro w rest c hc hw ih offset
    rcases Nat.lt_or_ge (bytes w).length offset with hlt | hle
    · obtain ⟨behind, rfl⟩ := Nat.exists_eq_add_of_le hlt
      obtain ⟨front, hfront⟩ := ih behind
      exact ⟨w ++ c :: front, hfront.append_cons hc⟩
    · exact ⟨[], .nil hc hw hle⟩
  induction text using cut_induction ',' ';' generalizing offset with
  | piece w hw =>
    exact ⟨[], ⟨w, rfl⟩, Nat.zero_le _, by simp, fun i b _ _ hb =>
      hw.ne_of_mem_bytes (List.mem_of_getElem? hb)⟩
  | comma_cons w rest hw ih => exact hcons w rest ',' (.inl rfl) hw ih offset
  | semicolon_cons w rest hw ih => exact hcons w rest ';' (.inr rfl) hw ih offset

/-- The symbols of a front end with a separator, or there are none. -/
theorem CutBefore.isSeparator_of_getLast? {text front : List Char} {offset : Nat}
    (h : CutBefore text offset front) :
    ∀ s ∈ ((bytes front).map Symbol.ofByte).getLast?, s.IsSeparator := by
  intro s hs
  rcases List.eq_nil_or_concat front with rfl | ⟨w, c, rfl⟩
  · cases hs
  · rw [List.concat_eq_append] at h hs
    obtain ⟨b, hb, hseparator⟩ := exists_byte_of_separator (h.ends c (by simp))
    have hlast : bytes (w ++ [c]) = bytes w ++ [b] := by simp [bytes, hb]
    rw [hlast, List.map_append, List.map_singleton, List.getLast?_concat, Option.mem_some] at hs
    exact hs ▸ hseparator

/-- **The place of a fault.** A text that cannot be read is refused at an offset within it or at its
end. Its front up to the last separator before that offset can be read, so the segment at fault is
the leftmost bad one. Within the text, the bytes up to and with the one at the offset decide: every
text that has them is refused at the same place and for the same reason. -/
theorem decode_error_located {text : String} {o : Nat} {f : MappingFault}
    (h : decode text = .error (o, f)) :
    o ≤ text.utf8ByteSize ∧
      (∃ front : String, CutBefore text.toList o front.toList) ∧
      (∀ front : String, CutBefore text.toList o front.toList →
        ∃ segments, decode front = .ok segments) ∧
      (o < text.utf8ByteSize → ∀ other : String,
        (∀ k ≤ o, other.toUTF8.toList[k]? = text.toUTF8.toList[k]?) →
          decode other = .error (o, f)) := by
  have hsize : 0 + (symbols text).length = text.utf8ByteSize := by
    rw [Nat.zero_add, length_symbols]
  refine ⟨?_, ?_, ?_, ?_⟩
  · rw [← hsize]
    exact (Reader.bounds_of_run h).2
  · obtain ⟨front, hfront⟩ := exists_cutBefore text.toList o
    exact ⟨String.ofList front, by rwa [String.toList_ofList]⟩
  · intro front hfront
    obtain ⟨rest, hrest⟩ := hfront.starts
    have hsymbols : symbols text = symbols front ++ (bytes rest).map .ofByte := by
      rw [symbols_eq_map_bytes, symbols_eq_map_bytes, hrest, bytes, List.flatMap_append,
        List.map_append]
      rfl
    have hle : 0 + (symbols front).length ≤ o := by
      rw [Nat.zero_add, symbols_eq_map_bytes, List.length_map]
      exact hfront.length_le
    have hlast := hfront.isSeparator_of_getLast?
    rw [← symbols_eq_map_bytes] at hlast
    rw [decode, hsymbols] at h
    exact Reader.exists_run_of_error (fun _ => ⟨rfl, rfl⟩) hlast h hle
  · intro hinside other hagree
    refine Reader.run_eq_error_of_agree h (hsize.symm ▸ hinside) fun k hk => ?_
    rw [symbols, symbols, List.getElem?_map, List.getElem?_map, hagree k hk]

/-- A text whose third segment has a character that is no digit, with a segment behind it. -/
def brokenText : String := "AAAA;CAAA,AA!A,C"

/-- The segments in front of the broken one can be read, and whatever follows the character at
fault, it is reported. -/
theorem decode_error_located_brokenText :
    decode brokenText = .error (12, .notBase64) ∧
      CutBefore brokenText.toList 12 "AAAA;CAAA,".toList ∧
      (∃ segments, decode "AAAA;CAAA," = .ok segments) ∧
      decode "AAAA;CAAA,AA!;;C" = .error (12, .notBase64) := by
  have h : decode brokenText = .error (12, .notBase64) := by decide +kernel
  have hcut : CutBefore brokenText.toList 12 "AAAA;CAAA,".toList := by
    have htext : brokenText.toList =
        "AAAA".toList ++ ';' :: ("CAAA".toList ++ ',' :: ("AA!A".toList ++ ',' :: ['C'])) := by
      decide +kernel
    have hpiece : IsPiece ',' ';' "AA!A".toList := by
      constructor <;> decide +kernel
    -- The offset lies within the third piece, behind two separators
    have hnil : CutBefore ("AA!A".toList ++ ',' :: ['C']) 2 [] :=
      .nil (.inl rfl) hpiece (by decide +kernel)
    rw [htext]
    exact (hnil.append_cons (w := "CAAA".toList) (.inl rfl)).append_cons (.inr rfl)
  obtain ⟨-, -, hfront, hfollows⟩ := decode_error_located h
  have hagree : ∀ k < 13, "AAAA;CAAA,AA!;;C".toUTF8.toList[k]? = brokenText.toUTF8.toList[k]? := by
    decide +kernel
  exact ⟨h, hcut, hfront _ hcut,
    hfollows (by decide +kernel) _ fun k hk => hagree k (Nat.lt_succ_of_le hk)⟩

end MappingText

end MapChain
