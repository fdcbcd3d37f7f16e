import MapChain.Proofs.Except
import MapChain.Proofs.MappingText.Characters
import MapChain.Proofs.MappingText.Overflow

/-!
# Numbers one after the other

Nothing stands between the numbers of a segment, so where one of them ends has to show from its
digits alone.

## Layers

- **Texts**: the symbols of the text of a number are its digits (`symbols_numberText`), and no text
  starts with that of another number (`eq_of_numberText_startsWith`).
- **Offsets**: `readAt` reads the number at an offset of some bytes, and `readAt_eq_ok_iff` says
  which numbers stand there. `readAll` goes from one number to the next up to the end of the bytes.
- **Runs**: digits that spell numbers are read as these (`readAll_of_spellsAll`), and the reader of
  a mapping text takes the digits of a number as a whole (`Reader.run_numberText`).
- **Statement**: `Writable.readsBack` for a single number, `numberText_selfDelimiting` for all.
-/

namespace MapChain

namespace Vlq

open MappingText (SpellsAll alphabet charSymbols letter symbols)

/-! ## Texts -/

/-- The signed numbers of 64 bits that are written as they are: all of them but the least. -/
def Writable (v : Int) : Prop := -2 ^ 63 < v ∧ v < 2 ^ 63

instance : DecidablePred Writable := fun v =>
  inferInstanceAs (Decidable (-2 ^ 63 < v ∧ v < 2 ^ 63))

/-- The text of a number. -/
def numberText (v : Int) : String :=
  String.ofList ((encode v).map fun d => MappingText.symbolChar (.digit d))

theorem Writable.natAbs_lt {v : Int} (h : Writable v) : v.natAbs < 2 ^ 63 := by
  obtain ⟨hlower, hupper⟩ := h
  omega

theorem toList_numberText (v : Int) : (numberText v).toList = (encode v).map letter := by
  rw [numberText, String.toList_ofList]
  exact List.map_congr_left fun d _ => MappingText.symbolChar_digit d

theorem length_numberText (v : Int) : (numberText v).length = (encode v).length := by
  rw [← String.length_toList, toList_numberText, List.length_map]

theorem symbols_numberText (v : Int) : symbols (numberText v) = (encode v).map .digit := by
  rw [MappingText.symbols_eq_flatMap]
  exact MappingText.flatMap_charSymbols_eq_iff.mpr (toList_numberText v)

theorem symbols_join_numberText (values : List Int) :
    symbols (String.join (values.map numberText)) = (values.flatMap encode).map .digit := by
  rw [MappingText.symbols_eq_flatMap, String.toList_join, List.flatMap_map, List.flatMap_assoc,
    List.map_flatMap]
  refine List.flatMap_congr fun v _ => ?_
  rw [← MappingText.symbols_eq_flatMap, symbols_numberText]

theorem letter_mem_alphabet (d : Sextet) : letter d ∈ alphabet := by
  revert d
  decide +kernel

theorem length_encode_pos (v : Int) : 1 ≤ (encode v).length :=
  List.length_pos_iff.mpr (continued_digits _).ne_nil

/-- What is written fits in 64 bits, so no bit of a thirteenth digit is lost. -/
theorem not_spills_encode {v : Int} (h : Writable v) : ¬ Spills (encode v) := by
  have hspells := spells_encode h.natAbs_lt
  rw [← size_le_groupSum_iff hspells.continued hspells.length_le, Nat.not_le, encode,
    groupSum_digits]
  exact Nat.mod_lt _ (by decide)

/-- **No text starts with the text of another number.** -/
theorem eq_of_numberText_startsWith {v w : Int} (hv : Writable v) (hw : Writable w)
    (h : (numberText v).toList <+: (numberText w).toList) : v = w := by
  obtain ⟨rest, happend⟩ := h
  -- Both are read from the start of the longer text
  have hsymbols : (encode v).map .digit ++ rest.flatMap charSymbols =
      (encode w).map .digit ++ [] := by
    rw [← symbols_numberText, ← symbols_numberText, MappingText.symbols_eq_flatMap,
      MappingText.symbols_eq_flatMap, ← happend, List.flatMap_append, List.append_nil]
  have hread := read_encode hv.natAbs_lt (rest.flatMap charSymbols)
  rw [hsymbols, read_encode hw.natAbs_lt, Except.ok.injEq, Prod.mk.injEq] at hread
  exact hread.1.symm

/-! ## Offsets -/

/-- Reads the number at an offset of some bytes, and returns it with the offset behind it. -/
def readAt (bytes : List UInt8) (offset : Nat) : Except MappingFault (Int × Nat) := do
  let (v, rest) ← read (symbolsFrom bytes offset)
  return (v, bytes.length - rest.length)

theorem length_symbolsFrom (bytes : List UInt8) (offset : Nat) :
    (symbolsFrom bytes offset).length = bytes.length - offset := by
  simp [symbolsFrom]

theorem symbolsFrom_add (bytes : List UInt8) (offset n : Nat) :
    symbolsFrom bytes (offset + n) = (symbolsFrom bytes offset).drop n := by
  simp [symbolsFrom, List.map_drop, List.drop_drop]

/-- Where some digits end that start at an offset, counted from the end of the bytes. -/
theorem sub_length_rest {bytes : List UInt8} {offset : Nat} {digits : List Sextet}
    {rest : List Symbol} (hne : digits ≠ [])
    (htext : symbolsFrom bytes offset = digits.map .digit ++ rest) :
    bytes.length - rest.length = offset + digits.length := by
  have hbytes := length_symbolsFrom bytes offset
  rw [htext, List.length_append, List.length_map] at hbytes
  -- Without a digit the offset could lie behind the end
  have hpos := List.length_pos_iff.mpr hne
  omega

/-- **The number at an offset** is the one that the digits from there on spell, and reading it leads
behind the last of them. -/
theorem readAt_eq_ok_iff {bytes : List UInt8} {offset next : Nat} {v : Int} :
    readAt bytes offset = .ok (v, next) ↔ ∃ digits, Spells digits v ∧
      digits.map .digit <+: symbolsFrom bytes offset ∧ next = offset + digits.length := by
  rw [readAt, bind_eq_ok_iff]
  constructor
  · intro h
    obtain ⟨⟨v', rest⟩, hread, hreturn⟩ := h
    cases pure_eq_ok_iff.mp hreturn
    obtain ⟨digits, htext, hspells⟩ := read_eq_ok_iff.mp hread
    exact ⟨digits, hspells, ⟨rest, htext.symm⟩, sub_length_rest hspells.continued.ne_nil htext⟩
  · intro h
    obtain ⟨digits, hspells, ⟨rest, htext⟩, rfl⟩ := h
    refine ⟨(v, rest), read_eq_ok_iff.mpr ⟨digits, htext.symm, hspells⟩, ?_⟩
    rw [← sub_length_rest hspells.continued.ne_nil htext.symm]
    rfl

/-- A number has a digit, and its digits lie within the bytes. -/
theorem readAt_bounds {bytes : List UInt8} {offset next : Nat} {v : Int}
    (h : readAt bytes offset = .ok (v, next)) : offset < next ∧ next ≤ bytes.length := by
  obtain ⟨digits, hspells, hstart, rfl⟩ := readAt_eq_ok_iff.mp h
  have hpos := List.length_pos_iff.mpr hspells.continued.ne_nil
  have hle := hstart.length_le
  rw [List.length_map, length_symbolsFrom] at hle
  omega

/-- A number that was written is read where it stands, whatever is around it. -/
theorem readAt_numberText {v : Int} (h : Writable v) (front back : List UInt8) :
    readAt (front ++ (numberText v).toUTF8.toList ++ back) front.length =
      .ok (v, front.length + (numberText v).toUTF8.toList.length) := by
  have hsymbols := symbols_numberText v
  refine readAt_eq_ok_iff.mpr ⟨encode v, spells_encode h.natAbs_lt, ⟨back.map .ofByte, ?_⟩, ?_⟩
  · rw [symbolsFrom, List.append_assoc, List.drop_left, List.map_append, ← hsymbols, symbols]
  · rw [← List.length_map (f := Symbol.digit), ← hsymbols, symbols, List.length_map]

/-- Reads the numbers from an offset of some bytes on until none of the bytes is left, and returns
them with the offset where this ends. -/
def readAll (bytes : List UInt8) (offset : Nat) : Except MappingFault (List Int × Nat) :=
  if offset < bytes.length then
    match h : readAt bytes offset with
    | .error f => .error f
    | .ok (v, next) => do
      have := readAt_bounds h
      let (values, stop) ← readAll bytes next
      return (v :: values, stop)
  else .ok ([], offset)
termination_by bytes.length - offset

/-! ## Runs -/

theorem readAll_of_readAt {bytes : List UInt8} {offset next stop : Nat} {v : Int}
    {values : List Int} (hread : readAt bytes offset = .ok (v, next))
    (hrest : readAll bytes next = .ok (values, stop)) :
    readAll bytes offset = .ok (v :: values, stop) := by
  have hlt : offset < bytes.length := by
    have hbounds := readAt_bounds hread
    omega
  rw [readAll, if_pos hlt]
  -- Termination needs the equation of the number at the offset, so the match is split, not rewritten
  split
  · next f hfault =>
    rw [hread] at hfault
    cases hfault
  · next v' next' hread' =>
    rw [hread] at hread'
    cases hread'
    rw [hrest]
    rfl

/-- **Digits that spell numbers are read as these**, up to the end of the bytes. -/
theorem readAll_of_spellsAll {bytes : List UInt8} {offset : Nat} {digits : List Sextet}
    {values : List Int} (hle : offset ≤ bytes.length)
    (htext : symbolsFrom bytes offset = digits.map .digit) (hspells : SpellsAll digits values) :
    readAll bytes offset = .ok (values, bytes.length) := by
  -- On the numbers; each of them moves the offset behind its own digits
  induction values generalizing offset digits with
  | nil =>
    -- No digits are left, so the bytes end here
    have hbytes := length_symbolsFrom bytes offset
    rw [htext, MappingText.spellsAll_nil_right.mp hspells, List.map_nil, List.length_nil] at hbytes
    rw [readAll, if_neg (by omega), show offset = bytes.length by omega]
  | cons v values ih =>
    obtain ⟨number, rest, rfl, hnumber, hrest⟩ := MappingText.spellsAll_cons_right.mp hspells
    rw [List.map_append] at htext
    have hread : readAt bytes offset = .ok (v, offset + number.length) :=
      readAt_eq_ok_iff.mpr ⟨number, hnumber, ⟨rest.map .digit, htext.symm⟩, rfl⟩
    refine readAll_of_readAt hread (ih (readAt_bounds hread).2 ?_ hrest)
    rw [symbolsFrom_add, htext, ← List.length_map (f := Symbol.digit), List.drop_left]

/-- Numbers that were written one after the other are read back, up to the end of their text. -/
theorem readAll_join {values : List Int} (h : ∀ v ∈ values, Writable v) :
    readAll (String.join (values.map numberText)).toUTF8.toList 0 =
      .ok (values, (String.join (values.map numberText)).toUTF8.toList.length) :=
  readAll_of_spellsAll (Nat.zero_le _) (symbols_join_numberText values)
    (MappingText.spellsAll_encode fun v hv => (h v hv).natAbs_lt)

/-- The least number of 64 bits is written like minus zero. -/
example : numberText (-2 ^ 63) = "B" ∧ readAll "B".toUTF8.toList 0 = .ok ([0], 1) := by
  decide +kernel

end Vlq

namespace MappingText.Reader

/-- The reader of a mapping text takes a number that was written, wherever a segment has room for
one, and stands behind its last digit. -/
theorem run_numberText {v : Int} (h : Vlq.Writable v) {t : Totals} {fields : List Int}
    (hroom : fields.length < maxFields) (i : Nat) (rest : List Symbol) :
    run ⟨t, fields, none⟩ i (symbols (Vlq.numberText v) ++ rest) =
      run ⟨t, fields ++ [v], none⟩ (i + (symbols (Vlq.numberText v)).length) rest := by
  rw [Vlq.symbols_numberText]
  obtain ⟨d, digits, hdigits⟩ :=
    List.exists_cons_of_ne_nil (List.length_pos_iff.mp (Vlq.length_encode_pos v))
  have hstart : ∃ d, ((Vlq.encode v).map Symbol.digit ++ rest).head? = some (.digit d) :=
    ⟨d, by rw [hdigits]; rfl⟩
  have htaken := (takesNumber (t := t) (i := i) hroom hstart).goes_on v rest
    (Vlq.read_encode h.natAbs_lt rest)
  rw [htaken, List.length_append, Nat.add_sub_cancel]

end MappingText.Reader

namespace Vlq

open MappingText (Totals alphabet maxFields symbols)

/-- The text of a number consists of one to thirteen letters of the alphabet, which spell no more
than 64 bits. It is read as the number wherever it stands among bytes and wherever a segment has room
for it, so that none of its digits is refused. -/
structure ReadsBack (v : Int) : Prop where
  length_pos : 1 ≤ (numberText v).length
  length_le : (numberText v).length ≤ 13
  letters : ∀ c ∈ (numberText v).toList, c ∈ alphabet
  not_spills : ¬ Spills (encode v)
  at_offset : ∀ front back : List UInt8,
    readAt (front ++ (numberText v).toUTF8.toList ++ back) front.length =
      .ok (v, front.length + (numberText v).toUTF8.toList.length)
  in_segment : ∀ (t : Totals) (fields : List Int) (i : Nat) (rest : List Symbol),
    fields.length < maxFields →
      MappingText.Reader.run ⟨t, fields, none⟩ i (symbols (numberText v) ++ rest) =
        MappingText.Reader.run ⟨t, fields ++ [v], none⟩ (i + (symbols (numberText v)).length) rest

theorem Writable.readsBack {v : Int} (h : Writable v) : ReadsBack v where
  length_pos := by
    rw [length_numberText]
    exact length_encode_pos v
  length_le := by
    rw [length_numberText]
    exact (spells_encode h.natAbs_lt).length_le
  letters c hc := by
    rw [toList_numberText] at hc
    obtain ⟨d, -, rfl⟩ := List.mem_map.mp hc
    exact letter_mem_alphabet d
  not_spills := not_spills_encode h
  at_offset := readAt_numberText h
  in_segment t fields i rest hroom := MappingText.Reader.run_numberText h hroom i rest

/-! ## Statement -/

/-- **Numbers need no separator.** Reading one number after the other from the start of a text of
numbers gives these numbers in their order and ends where the text ends. So different numbers have
different texts, of which none starts with another one, and each text is read back as a whole. -/
theorem numberText_selfDelimiting :
    (∀ values : List Int, (∀ v ∈ values, Writable v) →
      readAll (String.join (values.map numberText)).toUTF8.toList 0 =
        .ok (values, (String.join (values.map numberText)).toUTF8.toList.length)) ∧
    (∀ v w, Writable v → Writable w → numberText v = numberText w → v = w) ∧
    (∀ v w, Writable v → Writable w → (numberText v).toList <+: (numberText w).toList → v = w) ∧
    ∀ v, Writable v → ReadsBack v := by
  refine ⟨fun values => readAll_join, ?_, fun v w => eq_of_numberText_startsWith,
    fun v => Writable.readsBack⟩
  intro v w hv hw heq
  exact eq_of_numberText_startsWith hv hw (heq ▸ List.prefix_rfl)

/-- Numbers of one digit, of two, of twelve and of thirteen, the greatest magnitudes with both
signs. -/
def wideNumbers : List Int := [2 ^ 63 - 1, 0, -17, -(2 ^ 63 - 1), 2 ^ 59 - 1, -1]

/-- The widest numbers are read back with narrow ones right behind them, and wherever they stand. -/
theorem numberText_selfDelimiting_wideNumbers :
    (∀ v ∈ wideNumbers, Writable v) ∧
      String.join (wideNumbers.map numberText) = "+///////////PAjB////////////P+//////////fD" ∧
      readAll "+///////////PAjB////////////P+//////////fD".toUTF8.toList 0 = .ok (wideNumbers, 42) ∧
      ∀ front back, readAt (front ++ "////////////P".toUTF8.toList ++ back) front.length =
        .ok (-(2 ^ 63 - 1), front.length + 13) := by
  have hwritable : ∀ v ∈ wideNumbers, Writable v := by decide
  have htext : String.join (wideNumbers.map numberText) =
      "+///////////PAjB////////////P+//////////fD" := by
    decide +kernel
  have hwidest : numberText (-(2 ^ 63 - 1)) = "////////////P" := by decide +kernel
  have hlength : "////////////P".toUTF8.toList.length = 13 := by decide +kernel
  refine ⟨hwritable, htext, ?_, fun front back => ?_⟩
  · rw [← htext, numberText_selfDelimiting.1 wideNumbers hwritable, htext]
    decide +kernel
  · have hread := (numberText_selfDelimiting.2.2.2 (-(2 ^ 63 - 1)) (by decide)).at_offset front back
    rw [hwidest, hlength] at hread
    exact hread

end Vlq

end MapChain
