import MapChain.Proofs.Except
import MapChain.Proofs.MappingText.Pieces

/-!
# Reading a mapping text

The reader takes a text symbol by symbol. Here it is followed piece by piece: over the digits of a
number, over the numbers of a piece, over a piece and the separator behind it, and over a text.

## Layers

- **Totals**: `advance_totalsAfter` adds the numbers of a piece to the running sums.
- **Numbers**: `run_number` and `run_values` take the reader over the digits of a piece.
- **Pieces**: `run_end`, `run_comma` and `run_semicolon` close a piece.
- **Texts**: `run_eq_ok_iff` is the statement for a whole text, by cut induction.
-/

namespace MapChain.MappingText

/-! ## Totals -/

/-- The totals after some pieces, on the line with this index. -/
def totalsAfter (line : Nat) (sofar : List Piece) : Totals where
  line := line
  column := (columnSum line sofar).toNat
  source := (valueSum 1 sofar).toNat
  sourceLine := (valueSum 2 sofar).toNat
  sourceColumn := (valueSum 3 sofar).toNat
  name := (valueSum 4 sofar).toNat

theorem totalsAfter_nil : totalsAfter 0 [] = .start := rfl

/-- Adding to a total succeeds when the sum has 32 bits. -/
theorem add_eq_ok_iff {field : SegmentField} {total delta : Int} {n : Nat} (htotal : 0 ≤ total) :
    add field total.toNat delta = .ok n ↔ Fits (total + delta) ∧ n = (total + delta).toNat := by
  rw [add, Int.toNat_of_nonneg htotal, Fits]
  by_cases hneg : total + delta < 0
  · simp [hneg, Int.not_le.mpr hneg]
  · by_cases hlarge : (UInt32.size : Int) ≤ total + delta
    · simp only [hneg, hlarge, if_false, if_true, Int.not_lt.mpr hlarge, and_false, false_and,
        reduceCtorEq]
    · simp only [hneg, hlarge, if_false, Int.not_lt.mp hneg, Int.not_le.mp hlarge, and_self,
        true_and, Except.ok.injEq, eq_comm]

/-- The sums after one more piece on the line. -/
theorem sumsFit_append_iff {line : Nat} {sofar : List Piece} {values : List Int} :
    SumsFit line (sofar ++ [⟨line, values⟩]) ↔
      Fits (columnSum line sofar + values[0]?.getD 0) ∧
        Fits (valueSum 1 sofar + values[1]?.getD 0) ∧
        Fits (valueSum 2 sofar + values[2]?.getD 0) ∧
        Fits (valueSum 3 sofar + values[3]?.getD 0) ∧
        Fits (valueSum 4 sofar + values[4]?.getD 0) := by
  constructor
  · intro h
    obtain ⟨h0, h1, h2, h3, h4⟩ := h
    simp only [columnSum_append_singleton, valueSum_append_singleton, if_true] at h0 h1 h2 h3 h4
    exact ⟨h0, h1, h2, h3, h4⟩
  · intro h
    obtain ⟨h0, h1, h2, h3, h4⟩ := h
    constructor <;> simpa only [columnSum_append_singleton, valueSum_append_singleton, if_true]

/-- **One piece** is added to the totals when it has one, four or five numbers and the sums still
have 32 bits. -/
theorem advance_totalsAfter {line : Nat} {sofar : List Piece} {values : List Int}
    {segment : Option Segment} {t : Totals} (hfit : SumsFit line sofar) (hne : values ≠ []) :
    (totalsAfter line sofar).advance values = .ok (segment, t) ↔
      (values.length = 1 ∨ values.length = 4 ∨ values.length = 5) ∧
        SumsFit line (sofar ++ [⟨line, values⟩]) ∧
        segment = some (segmentAt (sofar ++ [⟨line, values⟩]) ⟨line, values⟩) ∧
        t = totalsAfter line (sofar ++ [⟨line, values⟩]) := by
  obtain ⟨hcolumn, hsource, hline, hscolumn, hname⟩ := hfit
  rw [sumsFit_append_iff]
  -- A sum without a further number has 32 bits already
  match values, hne with
  | [column], _ =>
    simp only [Totals.advance, bind_eq_ok_iff, pure_eq_ok_iff, totalsAfter,
      add_eq_ok_iff hcolumn.1, Totals.segment, Prod.mk.injEq, @eq_comm _ _ segment, @eq_comm _ _ t]
    simp [segmentAt, hsource, hline, hscolumn, hname]
  | [column, source, sline, scolumn], _ =>
    simp only [Totals.advance, Totals.moveOrigin, bind_eq_ok_iff, pure_eq_ok_iff, totalsAfter,
      add_eq_ok_iff hcolumn.1, add_eq_ok_iff hsource.1, add_eq_ok_iff hline.1,
      add_eq_ok_iff hscolumn.1, Totals.segment, Prod.mk.injEq, @eq_comm _ _ segment,
      @eq_comm _ _ t]
    simp [segmentAt, hname, and_assoc]
  | [column, source, sline, scolumn, name], _ =>
    simp only [Totals.advance, Totals.moveOrigin, bind_eq_ok_iff, pure_eq_ok_iff, totalsAfter,
      add_eq_ok_iff hcolumn.1, add_eq_ok_iff hsource.1, add_eq_ok_iff hline.1,
      add_eq_ok_iff hscolumn.1, Totals.segment, Prod.mk.injEq, @eq_comm _ _ segment,
      @eq_comm _ _ t]
    simp [segmentAt, add_eq_ok_iff hname.1, and_assoc]
  -- Any other count is refused once the column has been added
  | [column, _], _ =>
    simp [Totals.advance, bind_eq_ok_iff]
  | [column, _, _], _ =>
    simp [Totals.advance, bind_eq_ok_iff]
  | column :: _ :: _ :: _ :: _ :: _ :: _, _ =>
    simp [Totals.advance, bind_eq_ok_iff]

theorem nextLine_totalsAfter {line : Nat} {sofar : List Piece} (hline : line + 1 < UInt32.size)
    (hsofar : ∀ p ∈ sofar, p.line ≤ line) :
    (totalsAfter line sofar).nextLine = .ok (totalsAfter (line + 1) sofar) := by
  have hzero : columnSum (line + 1) sofar = 0 :=
    columnSum_eq_zero fun p hp h => by have := hsofar p hp; omega
  simp [Totals.nextLine, totalsAfter, hline, hzero]

namespace Reader

/-! ## Symbols -/

theorem run_offset {r : Reader} {text : List Symbol} {segments : List Segment} {i : Nat}
    (h : r.run i text = .ok segments) (j : Nat) : r.run j text = .ok segments := by
  induction text generalizing r segments i j with
  | nil =>
    rw [run] at h ⊢
    cases hfinish : r.finish with
    | error f => simp [hfinish] at h
    | ok segment => simpa [hfinish] using h
  | cons s text ih =>
    rw [run] at h ⊢
    cases hstep : r.step s with
    | error f => simp [hstep] at h
    | ok result =>
      obtain ⟨segment, r'⟩ := result
      cases hrun : r'.run (i + 1) text with
      | error e => simp [hstep, hrun] at h
      | ok more =>
        simp only [hstep, hrun] at h
        simp only [ih hrun (j + 1), h]

theorem run_cons_eq_ok_iff {r : Reader} {s : Symbol} {text : List Symbol}
    {segments : List Segment} (i j : Nat) :
    r.run i (s :: text) = .ok segments ↔ ∃ segment r' more,
      r.step s = .ok (segment, r') ∧ r'.run j text = .ok more ∧
        segments = segment.toList ++ more := by
  rw [run]
  cases hstep : r.step s with
  | error f => simp
  | ok result =>
    obtain ⟨segment, r'⟩ := result
    constructor
    · intro h
      cases hrun : r'.run (i + 1) text with
      | error e => simp [hrun] at h
      | ok more =>
        simp only [hrun, Except.ok.injEq] at h
        exact ⟨segment, r', more, rfl, run_offset hrun j, h.symm⟩
    · intro hyp
      obtain ⟨segment', r'', more, hresult, hrun, rfl⟩ := hyp
      cases hresult
      simp only [run_offset hrun (i + 1)]

theorem run_nil_eq_ok_iff {r : Reader} {segments : List Segment} (i : Nat) :
    r.run i [] = .ok segments ↔ ∃ segment, r.finish = .ok segment ∧ segments = segment.toList := by
  rw [run]
  cases r.finish with
  | error f => simp
  | ok segment => simp [eq_comm]

/-! ## Numbers -/

/-- **Within a number** the reader takes the digits that complete it. -/
theorem run_number {t : Totals} {fields : List Int} {p : Vlq.Partial} {text : List Symbol}
    {segments : List Segment} (i j : Nat) :
    run ⟨t, fields, some p⟩ i text = .ok segments ↔ ∃ v rest,
      Vlq.readFrom p text = .ok (v, rest) ∧
        run ⟨t, fields ++ [v], none⟩ j rest = .ok segments := by
  induction text generalizing p i with
  | nil => simp [run_nil_eq_ok_iff, finish, Vlq.readFrom]
  | cons s text ih =>
    rw [run_cons_eq_ok_iff i j]
    by_cases hs : ∃ d, s = .digit d
    · obtain ⟨d, rfl⟩ := hs
      simp only [step, pushDigit, Vlq.readFrom]
      cases p.push d with
      | error f => simp
      | ok progress =>
        cases progress with
        | more p' => simp [ih j, and_assoc]
        | done v => simp [and_assoc]
    · have hstep : step ⟨t, fields, some p⟩ s = .error .notBase64 := by
        cases s with
        | digit d => exact absurd ⟨d, rfl⟩ hs
        | comma => rfl
        | semicolon => rfl
        | other b => rfl
      simp [hstep, Vlq.readFrom_of_not_digit fun d hd => hs ⟨d, hd⟩]

theorem step_digit {t : Totals} {fields : List Int} {d : Sextet} (h : fields.length ≠ maxFields) :
    step ⟨t, fields, none⟩ (.digit d) = step ⟨t, fields, some .empty⟩ (.digit d) := by
  simp [step, h, pushDigit]

private theorem eq_append_of_append_eq_digits {w tail rest : List Symbol} {digits : List Sextet}
    (htail : ∀ d rest, tail ≠ .digit d :: rest) (h : w ++ tail = digits.map .digit ++ rest) :
    ∃ w', w = digits.map .digit ++ w' ∧ rest = w' ++ tail := by
  rcases List.append_eq_append_iff.mp h with ⟨more, hdigits, htaileq⟩ | ⟨w', hw, hrest⟩
  · -- The digits cannot reach into the tail
    cases more with
    | nil => exact ⟨[], by simpa using hdigits.symm, by simpa using htaileq.symm⟩
    | cons s more =>
      obtain ⟨d, -, hd⟩ := List.mem_map.mp (show s ∈ digits.map Symbol.digit by simp [hdigits])
      rw [← hd] at htaileq
      exact absurd htaileq (htail d _)
  · exact ⟨w', hw, hrest⟩

/-- Between numbers a digit begins one, and the reader takes what spells it. -/
theorem run_digit {t : Totals} {fields : List Int} {d : Sextet} {text : List Symbol}
    {segments : List Segment} (hroom : fields.length ≠ maxFields) (i j : Nat) :
    run ⟨t, fields, none⟩ i (.digit d :: text) = .ok segments ↔ ∃ number v rest,
      Symbol.digit d :: text = number.map .digit ++ rest ∧ Vlq.Spells number v ∧
        run ⟨t, fields ++ [v], none⟩ j rest = .ok segments := by
  have hbegin : run ⟨t, fields, none⟩ i (.digit d :: text) =
      run ⟨t, fields, some .empty⟩ i (.digit d :: text) := by
    rw [run, run, step_digit hroom]
  rw [hbegin, run_number i j]
  constructor
  · intro h
    obtain ⟨v, rest, hread, hrun⟩ := h
    obtain ⟨number, htext, hnumber⟩ := Vlq.read_eq_ok_iff.mp hread
    exact ⟨number, v, rest, htext, hnumber, hrun⟩
  · intro h
    obtain ⟨number, v, rest, htext, hnumber, hrun⟩ := h
    exact ⟨v, rest, Vlq.read_eq_ok_iff.mpr ⟨number, htext, hnumber⟩, hrun⟩

/-- The reader takes the numbers that digits spell, as many as a segment has room for. -/
theorem run_of_spellsAll {t : Totals} {fields values : List Int} {digits : List Sextet}
    {tail : List Symbol} {segments : List Segment} (hspells : SpellsAll digits values)
    (hlength : fields.length + values.length ≤ maxFields) (i j : Nat)
    (hrun : run ⟨t, fields ++ values, none⟩ j tail = .ok segments) :
    run ⟨t, fields, none⟩ i (digits.map .digit ++ tail) = .ok segments := by
  induction values generalizing digits fields i with
  | nil =>
    rw [spellsAll_nil_right.mp hspells]
    rw [List.append_nil] at hrun
    exact run_offset hrun i
  | cons v values ih =>
    obtain ⟨number, rest, rfl, hnumber, hrest⟩ := spellsAll_cons_right.mp hspells
    obtain ⟨d, number', rfl⟩ := List.exists_cons_of_ne_nil hnumber.continued.ne_nil
    rw [List.length_cons] at hlength
    have hrun' : run ⟨t, fields ++ [v], none⟩ j (rest.map .digit ++ tail) = .ok segments := by
      apply ih hrest
      · rw [List.length_append, List.length_singleton]
        omega
      · rwa [List.append_assoc]
    rw [List.map_append, List.append_assoc]
    exact (run_digit (by omega) i j).mpr ⟨d :: number', v, _, rfl, hnumber, hrun'⟩

/-- A piece that the reader takes consists of digits that spell numbers. -/
theorem exists_spellsAll_of_run {t : Totals} {fields : List Int} {w tail : List Symbol}
    {segments : List Segment} (hw : IsPiece .comma .semicolon w)
    (htail : ∀ d rest, tail ≠ .digit d :: rest) (hfields : fields.length ≤ maxFields) (i j : Nat)
    (hrun : run ⟨t, fields, none⟩ i (w ++ tail) = .ok segments) :
    ∃ digits values, w = digits.map .digit ∧ SpellsAll digits values ∧
      fields.length + values.length ≤ maxFields ∧
      run ⟨t, fields ++ values, none⟩ j tail = .ok segments := by
  -- The rest behind a number is a shorter piece
  induction hn : w.length using Nat.strongRecOn generalizing w fields i with
  | ind n ih =>
    subst hn
    cases w with
    | nil =>
      exact ⟨[], [], rfl, spellsAll_nil_right.mpr rfl, hfields, by simpa using run_offset hrun j⟩
    | cons s w =>
      rw [List.cons_append] at hrun
      cases s with
      | comma => exact absurd List.mem_cons_self hw.1
      | semicolon => exact absurd List.mem_cons_self hw.2
      | other b =>
        -- Refused, whether or not the segment has room
        rw [run_cons_eq_ok_iff i j] at hrun
        simp only [step] at hrun
        split at hrun <;> simp at hrun
      | digit d =>
        have hroom : fields.length ≠ maxFields := by
          intro hfull
          rw [run_cons_eq_ok_iff i j] at hrun
          simp [step, hfull] at hrun
        obtain ⟨number, v, rest, htext, hnumber, hrest⟩ := (run_digit hroom i j).mp hrun
        rw [← List.cons_append] at htext
        obtain ⟨w', hw', rfl⟩ := eq_append_of_append_eq_digits htail htext
        have hshorter : w'.length < (Symbol.digit d :: w).length := by
          have hpos := List.length_pos_iff.mpr hnumber.continued.ne_nil
          rw [hw', List.length_append, List.length_map]
          omega
        have hpiece : IsPiece Symbol.comma .semicolon w' := by
          rw [hw'] at hw
          exact ⟨fun h => hw.1 (List.mem_append_right _ h),
            fun h => hw.2 (List.mem_append_right _ h)⟩
        have hfields' : (fields ++ [v]).length ≤ maxFields := by
          rw [List.length_append, List.length_singleton]
          omega
        obtain ⟨digits, values, rfl, hspells, hlength, hrun'⟩ :=
          ih _ hshorter hpiece hfields' j hrest rfl
        refine ⟨number ++ digits, v :: values, by rw [hw', List.map_append],
          spellsAll_cons_right.mpr ⟨number, digits, rfl, hnumber, hspells⟩, ?_, ?_⟩
        · rw [List.length_append, List.length_singleton] at hlength
          rw [List.length_cons]
          omega
        · rwa [List.append_assoc] at hrun'

/-- **Over a piece** the reader takes the numbers that its digits spell. -/
theorem run_values {t : Totals} {fields : List Int} {w tail : List Symbol}
    {segments : List Segment} (hw : IsPiece .comma .semicolon w)
    (htail : ∀ d rest, tail ≠ .digit d :: rest) (hfields : fields.length ≤ maxFields) (i j : Nat) :
    run ⟨t, fields, none⟩ i (w ++ tail) = .ok segments ↔ ∃ digits values,
      w = digits.map .digit ∧ SpellsAll digits values ∧
        fields.length + values.length ≤ maxFields ∧
        run ⟨t, fields ++ values, none⟩ j tail = .ok segments := by
  constructor
  · exact exists_spellsAll_of_run hw htail hfields i j
  · intro h
    obtain ⟨digits, values, rfl, hspells, hlength, hrun⟩ := h
    exact run_of_spellsAll hspells hlength i j hrun

/-! ## Pieces -/

/-- Closing a segment adds its numbers to the totals. -/
theorem close_eq_ok_iff {r r' : Reader} {segment : Option Segment} :
    r.close = .ok (segment, r') ↔
      ∃ t, r.totals.advance r.fields = .ok (segment, t) ∧ r' = ⟨t, [], none⟩ := by
  simp only [close, bind_eq_ok_iff, pure_eq_ok_iff, Prod.exists, Prod.mk.injEq]
  constructor
  · intro h
    obtain ⟨_, t, hadvance, rfl, rfl⟩ := h
    exact ⟨t, hadvance, rfl⟩
  · intro h
    obtain ⟨t, hadvance, rfl⟩ := h
    exact ⟨segment, t, hadvance, rfl, rfl⟩

theorem run_end {t : Totals} {values : List Int} {segments : List Segment} (i : Nat) :
    run ⟨t, values, none⟩ i [] = .ok segments ↔ ∃ segment t',
      t.advance values = .ok (segment, t') ∧ segments = segment.toList := by
  simp only [run_nil_eq_ok_iff, finish, bind_eq_ok_iff, pure_eq_ok_iff, Prod.exists,
    close_eq_ok_iff]
  constructor
  · intro h
    obtain ⟨segment, ⟨_, _, ⟨t', hadvance, -⟩, rfl⟩, hsegments⟩ := h
    exact ⟨_, t', hadvance, hsegments⟩
  · intro h
    obtain ⟨segment, t', hadvance, hsegments⟩ := h
    exact ⟨segment, ⟨_, _, ⟨t', hadvance, rfl⟩, rfl⟩, hsegments⟩

theorem run_comma {t : Totals} {values : List Int} {rest : List Symbol} {segments : List Segment}
    (i j : Nat) :
    run ⟨t, values, none⟩ i (.comma :: rest) = .ok segments ↔ ∃ segment t',
      t.advance values = .ok (segment, t') ∧ ∃ more,
        run ⟨t', [], none⟩ j rest = .ok more ∧ segments = segment.toList ++ more := by
  simp only [run_cons_eq_ok_iff i j, step, close_eq_ok_iff]
  constructor
  · intro h
    obtain ⟨segment, _, more, ⟨t', hadvance, rfl⟩, hrun, hsegments⟩ := h
    exact ⟨segment, t', hadvance, more, hrun, hsegments⟩
  · intro h
    obtain ⟨segment, t', hadvance, more, hrun, hsegments⟩ := h
    exact ⟨segment, _, more, ⟨t', hadvance, rfl⟩, hrun, hsegments⟩

theorem run_semicolon {t : Totals} {values : List Int} {rest : List Symbol}
    {segments : List Segment} (i j : Nat) :
    run ⟨t, values, none⟩ i (.semicolon :: rest) = .ok segments ↔ ∃ segment t',
      t.advance values = .ok (segment, t') ∧ ∃ more,
        (∃ t'', t'.nextLine = .ok t'' ∧ run ⟨t'', [], none⟩ j rest = .ok more) ∧
          segments = segment.toList ++ more := by
  simp only [run_cons_eq_ok_iff i j, step, bind_eq_ok_iff, pure_eq_ok_iff, Prod.exists,
    close_eq_ok_iff, Prod.mk.injEq]
  constructor
  · rintro ⟨segment, _, more, ⟨_, _, ⟨t', hadvance, rfl⟩, t'', hnext, rfl, rfl⟩, hrun, hsegments⟩
    exact ⟨_, t', hadvance, more, ⟨t'', hnext, hrun⟩, hsegments⟩
  · intro h
    obtain ⟨segment, t', hadvance, more, ⟨t'', hnext, hrun⟩, hsegments⟩ := h
    exact ⟨segment, _, more, ⟨_, _, ⟨t', hadvance, rfl⟩, t'', hnext, rfl, rfl⟩, hrun, hsegments⟩

end Reader

/-! ## Texts -/

/-- The pieces of a text that are not empty. -/
def written {α : Type} (pieces : List (Nat × List α)) : List (Nat × List α) :=
  pieces.filter fun piece => !piece.2.isEmpty

/-- What closing a piece does to the totals: nothing when it is empty, and otherwise it adds the
numbers that it spells. -/
theorem advance_piece {line : Nat} {sofar : List Piece} {w : List Symbol}
    {segment : Option Segment} {t : Totals} (hfit : SumsFit line sofar) :
    (∃ digits values, w = digits.map .digit ∧ SpellsAll digits values ∧
        values.length ≤ maxFields ∧
        (totalsAfter line sofar).advance values = .ok (segment, t)) ↔
      w = [] ∧ segment = none ∧ t = totalsAfter line sofar ∨
        w ≠ [] ∧ ∃ p, Spelled .digit (line, w) p ∧ SumsFit line (sofar ++ [p]) ∧
          segment = some (segmentAt (sofar ++ [p]) p) ∧ t = totalsAfter line (sofar ++ [p]) := by
  constructor
  · intro h
    obtain ⟨digits, values, rfl, hspells, -, hadvance⟩ := h
    by_cases hdigits : digits = []
    · subst hdigits
      obtain rfl := spellsAll_nil_left.mp hspells
      simp only [Totals.advance, Except.ok.injEq, Prod.mk.injEq] at hadvance
      exact .inl ⟨rfl, hadvance.1.symm, hadvance.2.symm⟩
    · have hvalues : values ≠ [] := by
        rintro rfl
        exact hdigits (spellsAll_nil_right.mp hspells)
      obtain ⟨hlength, hsums, hsegment, ht⟩ := (advance_totalsAfter hfit hvalues).mp hadvance
      exact .inr ⟨by simpa using hdigits, ⟨line, values⟩,
        ⟨rfl, hlength, digits, rfl, hspells⟩, hsums, hsegment, ht⟩
  · rintro (⟨rfl, rfl, rfl⟩ | ⟨-, ⟨_, values⟩, ⟨rfl, hlength, digits, rfl, hspells⟩, hsums, rfl, rfl⟩)
    · exact ⟨[], [], rfl, by simp, by simp, rfl⟩
    · have hvalues : values ≠ [] := by
        rintro rfl
        simp at hlength
      refine ⟨digits, values, rfl, hspells, ?_,
        (advance_totalsAfter hfit hvalues).mpr ⟨hlength, hsums, rfl, rfl⟩⟩
      simp only [maxFields] at hlength ⊢
      omega

/-- **The meaning of pieces** behind some others: each that is not empty spells its numbers, the
sums have 32 bits, and they make the segments. -/
def Means {α : Type} (letter : Sextet → α) (sofar : List Piece) (cut : List (Nat × List α))
    (segments : List Segment) : Prop :=
  ∃ pieces, List.Forall₂ (Spelled letter) (written cut) pieces ∧ AllFit sofar pieces ∧
    segments = segmentsFrom sofar pieces

theorem means_nil {α : Type} {letter : Sextet → α} {sofar : List Piece}
    {segments : List Segment} : Means letter sofar [] segments ↔ segments = [] := by
  simp [Means, written, AllFit, segmentsFrom]

/-- The first piece is passed over when it is empty, and otherwise it adds its segment. -/
theorem means_cons {α : Type} {letter : Sextet → α} {sofar : List Piece} {line : Nat} {w : List α}
    {cut : List (Nat × List α)} {segments : List Segment} :
    Means letter sofar ((line, w) :: cut) segments ↔
      w = [] ∧ Means letter sofar cut segments ∨
        w ≠ [] ∧ ∃ p, Spelled letter (line, w) p ∧ SumsFit line (sofar ++ [p]) ∧ ∃ more,
          Means letter (sofar ++ [p]) cut more ∧
            segments = segmentAt (sofar ++ [p]) p :: more := by
  by_cases hw : w = []
  · simp [Means, written, hw]
  · have hwritten : written ((line, w) :: cut) = (line, w) :: written cut := by
      simp [written, hw]
    simp only [hw, false_and, false_or, ne_eq, not_false_eq_true, true_and]
    constructor
    · intro h
      obtain ⟨pieces, hpieces, hfit, rfl⟩ := h
      rw [hwritten] at hpieces
      obtain ⟨p, others, hp, hothers, rfl⟩ := List.forall₂_cons_left_iff.mp hpieces
      have hline : p.line = line := hp.line
      rw [AllFit, hline] at hfit
      exact ⟨p, hp, hfit.1, _, ⟨others, hothers, hfit.2, rfl⟩, rfl⟩
    · intro h
      obtain ⟨p, hp, hsums, more, ⟨pieces, hpieces, hfit, rfl⟩, rfl⟩ := h
      have hline : p.line = line := hp.line
      refine ⟨p :: pieces, hwritten ▸ .cons hp hpieces, ⟨?_, hfit⟩, rfl⟩
      rw [hline]
      exact hsums

theorem SumsFit.nextLine {line : Nat} {sofar : List Piece} (h : SumsFit line sofar)
    (hsofar : ∀ p ∈ sofar, p.line ≤ line) : SumsFit (line + 1) sofar := by
  refine { h with column := ?_ }
  rw [columnSum_eq_zero fun p hp hline => by have := hsofar p hp; omega]
  exact ⟨le_rfl, by decide⟩

/-- **Over one piece**: what the reader makes of the rest is continued behind the totals of the
piece. -/
theorem run_piece {line : Nat} {sofar : List Piece} {w tail : List Symbol}
    {segments : List Segment} {rest : Option Segment → Totals → Prop} {i : Nat}
    (hfit : SumsFit line sofar) (hw : IsPiece .comma .semicolon w)
    (htail : ∀ d more, tail ≠ .digit d :: more)
    (hrest : ∀ t values, Reader.run ⟨t, values, none⟩ 0 tail = .ok segments ↔
      ∃ segment t', t.advance values = .ok (segment, t') ∧ rest segment t') :
    Reader.run ⟨totalsAfter line sofar, [], none⟩ i (w ++ tail) = .ok segments ↔
      w = [] ∧ rest none (totalsAfter line sofar) ∨
        w ≠ [] ∧ ∃ p, Spelled .digit (line, w) p ∧ SumsFit line (sofar ++ [p]) ∧
          rest (some (segmentAt (sofar ++ [p]) p)) (totalsAfter line (sofar ++ [p])) := by
  rw [Reader.run_values hw htail (by simp) i 0]
  constructor
  · intro hyp
    obtain ⟨digits, values, hdigits, hspells, hlength, hrun⟩ := hyp
    rw [List.nil_append, hrest] at hrun
    obtain ⟨segment, t, hadvance, hmore⟩ := hrun
    have hpiece := (advance_piece hfit).mp
      ⟨digits, values, hdigits, hspells, by simpa using hlength, hadvance⟩
    rcases hpiece with ⟨hnil, rfl, rfl⟩ | ⟨hne, p, hp, hsums, rfl, rfl⟩
    · exact .inl ⟨hnil, hmore⟩
    · exact .inr ⟨hne, p, hp, hsums, hmore⟩
  · intro h
    have hadvance : ∃ segment t, rest segment t ∧ ∃ digits values, w = digits.map .digit ∧
        SpellsAll digits values ∧ values.length ≤ maxFields ∧
        (totalsAfter line sofar).advance values = .ok (segment, t) := by
      rcases h with ⟨hnil, hmore⟩ | ⟨hne, p, hp, hsums, hmore⟩
      · exact ⟨_, _, hmore, (advance_piece hfit).mpr (.inl ⟨hnil, rfl, rfl⟩)⟩
      · exact ⟨_, _, hmore, (advance_piece hfit).mpr (.inr ⟨hne, p, hp, hsums, rfl, rfl⟩)⟩
    obtain ⟨segment, t, hmore, digits, values, hdigits, hspells, hlength, hadvance⟩ := hadvance
    refine ⟨digits, values, hdigits, hspells, by simpa using hlength, ?_⟩
    rw [List.nil_append, hrest]
    exact ⟨segment, t, hadvance, hmore⟩

/-- **A text is read** exactly when its pieces have a meaning, and into that. -/
theorem run_eq_ok_iff {line : Nat} {sofar : List Piece} {text : List Symbol}
    {segments : List Segment} (hfit : SumsFit line sofar) (hsofar : ∀ p ∈ sofar, p.line ≤ line)
    (hlines : line + text.count .semicolon < UInt32.size) (i : Nat) :
    Reader.run ⟨totalsAfter line sofar, [], none⟩ i text = .ok segments ↔
      Means .digit sofar (piecesFrom .comma .semicolon line text) segments := by
  -- On the pieces of the text; the pieces so far and the line are the state that goes along
  induction text using cut_induction Symbol.comma Symbol.semicolon
    generalizing line sofar segments i with
  | piece w hw =>
    have h : Reader.run ⟨totalsAfter line sofar, [], none⟩ i (w ++ []) = .ok segments ↔ _ :=
      run_piece hfit hw (by simp) fun t values => Reader.run_end 0
    rw [List.append_nil] at h
    rw [h, piecesFrom_of_piece hw, means_cons]
    simp [means_nil]
  | comma_cons w rest hw ih =>
    rw [run_piece hfit hw (by simp) fun t values => Reader.run_comma 0 0,
      piecesFrom_comma (by simp) hw, means_cons]
    rw [List.count_append, List.count_cons] at hlines
    -- The rest is read behind the same pieces, or behind one more
    refine or_congr (and_congr_right fun _ => ?_) (and_congr_right fun _ => exists_congr fun p =>
      and_congr_right fun hp => and_congr_right fun hsums => exists_congr fun more =>
        and_congr_left fun _ => ?_)
    · simp only [ih hfit hsofar (by omega) 0, Option.toList_none, List.nil_append,
        exists_eq_right']
    · refine ih hsums ?_ (by omega) 0
      simpa [or_imp, forall_and] using ⟨hsofar, hp.line.le⟩
  | semicolon_cons w rest hw ih =>
    rw [run_piece hfit hw (by simp) fun t values => Reader.run_semicolon 0 0,
      piecesFrom_semicolon hw, means_cons]
    rw [List.count_append, List.count_cons_self] at hlines
    -- As above, but the rest is on the next line, whose column starts over
    refine or_congr (and_congr_right fun _ => ?_) (and_congr_right fun _ => exists_congr fun p =>
      and_congr_right fun hp => and_congr_right fun hsums => exists_congr fun more =>
        and_congr_left fun _ => ?_)
    · have hlater : ∀ p ∈ sofar, p.line ≤ line + 1 := fun p hp => (hsofar p hp).trans (by omega)
      simp only [nextLine_totalsAfter (by omega) hsofar, Except.ok.injEq, exists_eq_left',
        ih (hfit.nextLine hsofar) hlater (by omega) 0, Option.toList_none, List.nil_append,
        exists_eq_right']
    · have hsofar' : ∀ q ∈ sofar ++ [p], q.line ≤ line := by
        simpa [or_imp, forall_and] using ⟨hsofar, hp.line.le⟩
      simp only [nextLine_totalsAfter (by omega) hsofar', Except.ok.injEq, exists_eq_left']
      exact ih (hsums.nextLine hsofar') (fun q hq => (hsofar' q hq).trans (by omega)) (by omega) 0

end MapChain.MappingText
