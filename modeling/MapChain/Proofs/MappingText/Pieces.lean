import Mathlib.Data.List.Forall2
import MapChain.Proofs.MappingText.Number
import MapChain.SourceMap.MappingText

/-!
# The pieces of a mapping text

A mapping text is cut at every semicolon into lines and a line at every comma into pieces. This
module cuts texts over any alphabet, so that it serves for characters and for symbols alike.

## Layers

- **Cutting**: `piecesFrom` lists the pieces with the index of their line. `piecesFrom_of_piece`,
  `piecesFrom_comma` and `piecesFrom_semicolon` follow a text piece by piece, and `cut_induction` is
  the induction that goes with them.
- **Grammar**: `Spelled` says which numbers a piece spells.
- **Running sums**: `columnSum` and `valueSum` add up the numbers of one kind, `SumsFit` bounds them,
  and `segmentAt` is the segment that they make.
-/

namespace MapChain.MappingText

/-! ## Cutting -/

section Cutting

variable {α : Type} [BEq α] [LawfulBEq α] {comma semicolon : α}

/-- The pieces of a text with the index of their line, the first line having the given one. -/
def piecesFrom (comma semicolon : α) (line : Nat) (text : List α) : List (Nat × List α) :=
  ((text.splitOn semicolon).zipIdx line).flatMap fun (pieces, i) =>
    (pieces.splitOn comma).map fun piece => (i, piece)

/-- A text without separators. -/
def IsPiece (comma semicolon : α) (text : List α) : Prop := comma ∉ text ∧ semicolon ∉ text

omit [BEq α] [LawfulBEq α] in
theorem isPiece_nil : IsPiece comma semicolon [] := ⟨List.not_mem_nil, List.not_mem_nil⟩

theorem piecesFrom_of_piece {w : List α} (hw : IsPiece comma semicolon w) (line : Nat) :
    piecesFrom comma semicolon line w = [(line, w)] := by
  simp [piecesFrom, List.splitOn_eq_singleton hw.2, List.splitOn_eq_singleton hw.1]

/-- A semicolon ends a piece and a line. -/
theorem piecesFrom_semicolon {w : List α} (hw : IsPiece comma semicolon w) (line : Nat)
    (rest : List α) :
    piecesFrom comma semicolon line (w ++ semicolon :: rest) =
      (line, w) :: piecesFrom comma semicolon (line + 1) rest := by
  simp [piecesFrom, List.splitOn_append_cons_self_of_not_mem hw.2,
    List.splitOn_eq_singleton hw.1]

/-- What stands in front of a text without the separator belongs to its first part. -/
theorem splitOn_append_of_not_mem {a : α} {w : List α} (hw : a ∉ w) (text : List α) :
    (w ++ text).splitOn a = (text.splitOn a).modifyHead (w ++ ·) := by
  induction w with
  | nil =>
    simp only [List.nil_append]
    cases text.splitOn a <;> rfl
  | cons x w ih =>
    obtain ⟨hx, hw⟩ := not_or.mp (List.mem_cons.not.mp hw)
    rw [List.cons_append, List.splitOn_cons_eq_if_modifyHead,
      if_neg (by simpa using fun h => hx h.symm), ih hw]
    cases text.splitOn a <;> simp

/-- A comma ends a piece. -/
theorem piecesFrom_comma (hne : comma ≠ semicolon) {w : List α}
    (hw : IsPiece comma semicolon w) (line : Nat) (rest : List α) :
    piecesFrom comma semicolon line (w ++ comma :: rest) =
      (line, w) :: piecesFrom comma semicolon line rest := by
  have hsemicolon : semicolon ∉ w ++ [comma] := by
    simp [hw.2, hne.symm]
  -- What stands in front of the comma goes to the first line of the rest
  obtain ⟨first, others, hsplit⟩ := List.exists_cons_of_ne_nil (List.splitOn_ne_nil semicolon rest)
  have happend : w ++ comma :: rest = (w ++ [comma]) ++ rest := by simp
  rw [piecesFrom, happend, splitOn_append_of_not_mem hsemicolon, piecesFrom, hsplit]
  simp [List.splitOn_append_cons_self_of_not_mem hw.1]

omit [BEq α] [LawfulBEq α] in
/-- A text is a piece, or it starts with a piece that a separator ends. -/
theorem exists_piece (comma semicolon : α) (text : List α) :
    ∃ w, IsPiece comma semicolon w ∧
      (text = w ∨ ∃ rest, text = w ++ comma :: rest ∨ text = w ++ semicolon :: rest) := by
  induction text with
  | nil => exact ⟨[], isPiece_nil, .inl rfl⟩
  | cons s text ih =>
    obtain ⟨w, ⟨hcomma, hsemicolon⟩, hw⟩ := ih
    -- A separator in front ends an empty piece, and anything else joins the first piece
    by_cases hs : s = comma
    · exact ⟨[], isPiece_nil, .inr ⟨text, .inl (by rw [hs, List.nil_append])⟩⟩
    by_cases hs' : s = semicolon
    · exact ⟨[], isPiece_nil, .inr ⟨text, .inr (by rw [hs', List.nil_append])⟩⟩
    refine ⟨s :: w, ⟨?_, ?_⟩, ?_⟩
    · simpa using ⟨fun h => hs h.symm, hcomma⟩
    · simpa using ⟨fun h => hs' h.symm, hsemicolon⟩
    · rcases hw with rfl | ⟨rest, rfl | rfl⟩
      · exact .inl rfl
      · exact .inr ⟨rest, .inl rfl⟩
      · exact .inr ⟨rest, .inr rfl⟩

omit [BEq α] [LawfulBEq α] in
/-- **Cut induction**: what holds of a single piece, and of a text when it holds behind its first
separator, holds of every text. -/
theorem cut_induction (comma semicolon : α) {motive : List α → Prop}
    (piece : ∀ w, IsPiece comma semicolon w → motive w)
    (comma_cons : ∀ w rest, IsPiece comma semicolon w → motive rest → motive (w ++ comma :: rest))
    (semicolon_cons : ∀ w rest, IsPiece comma semicolon w → motive rest →
      motive (w ++ semicolon :: rest)) (text : List α) : motive text := by
  -- On the length, since the rest is not a tail of the text
  induction hn : text.length using Nat.strongRecOn generalizing text with
  | ind n ih =>
    subst hn
    obtain ⟨w, hw, rfl | ⟨rest, rfl | rfl⟩⟩ := exists_piece comma semicolon text
    · exact piece text hw
    · exact comma_cons w rest hw (ih rest.length (by simp; omega) rest rfl)
    · exact semicolon_cons w rest hw (ih rest.length (by simp; omega) rest rfl)

end Cutting

/-! ## Grammar -/

/-- Digits that spell numbers one after the other. -/
def SpellsAll (digits : List Sextet) (values : List Int) : Prop :=
  ∃ numbers : List (List Sextet),
    digits = numbers.flatten ∧ List.Forall₂ Vlq.Spells numbers values

@[simp] theorem spellsAll_nil_right {digits : List Sextet} :
    SpellsAll digits [] ↔ digits = [] := by
  simp [SpellsAll]

theorem spellsAll_cons_right {digits : List Sextet} {v : Int} {values : List Int} :
    SpellsAll digits (v :: values) ↔ ∃ number rest,
      digits = number ++ rest ∧ Vlq.Spells number v ∧ SpellsAll rest values := by
  constructor
  · intro hyp
    obtain ⟨numbers, rfl, h⟩ := hyp
    obtain ⟨number, others, hnumber, hothers, rfl⟩ := List.forall₂_cons_right_iff.mp h
    exact ⟨number, others.flatten, rfl, hnumber, others, rfl, hothers⟩
  · intro hyp
    obtain ⟨number, rest, rfl, hnumber, numbers, rfl, hnumbers⟩ := hyp
    exact ⟨number :: numbers, rfl, .cons hnumber hnumbers⟩

/-- Numbers are spelled one after the other by what writes each of them. -/
theorem spellsAll_encode {values : List Int} (h : ∀ v ∈ values, v.natAbs < 2 ^ 63) :
    SpellsAll (values.flatMap Vlq.encode) values := by
  refine ⟨values.map Vlq.encode, by rw [List.flatMap_def], ?_⟩
  rw [List.forall₂_map_left_iff, List.forall₂_same]
  exact fun v hv => Vlq.spells_encode (h v hv)

@[simp] theorem spellsAll_nil_left {values : List Int} : SpellsAll [] values ↔ values = [] := by
  cases values with
  | nil => simp
  | cons v values =>
    rw [spellsAll_cons_right]
    constructor
    · intro hyp
      obtain ⟨number, rest, hnil, hnumber, -⟩ := hyp
      exact absurd (List.append_eq_nil_iff.mp hnil.symm).1 hnumber.continued.ne_nil
    · intro h
      simp at h

theorem SpellsAll.unique {digits : List Sextet} {values values' : List Int}
    (h : SpellsAll digits values) (h' : SpellsAll digits values') : values = values' := by
  induction values generalizing digits values' with
  | nil =>
    rw [spellsAll_nil_right.mp h, spellsAll_nil_left] at h'
    exact h'.symm
  | cons v values ih =>
    cases values' with
    | nil =>
      rw [spellsAll_nil_right.mp h', spellsAll_nil_left] at h
      exact h
    | cons v' values' =>
      -- The first numbers agree, and then the digits behind them do
      obtain ⟨number, rest, rfl, hnumber, hrest⟩ := spellsAll_cons_right.mp h
      obtain ⟨number', rest', heq, hnumber', hrest'⟩ := spellsAll_cons_right.mp h'
      obtain ⟨rfl, rfl⟩ := hnumber.append_inj hnumber' heq
      rw [ih hrest hrest']

/-- The numbers of a piece, on the line with this index. -/
structure Piece where
  line : Nat
  values : List Int

/-- A piece spells one, four or five numbers; `letter` writes a digit. -/
structure Spelled {α : Type} (letter : Sextet → α) (text : Nat × List α) (p : Piece) : Prop where
  line : p.line = text.1
  length : p.values.length = 1 ∨ p.values.length = 4 ∨ p.values.length = 5
  digits : ∃ digits, text.2 = digits.map letter ∧ SpellsAll digits p.values

/-- A text spells one piece only, as long as no two digits are written alike. -/
theorem Spelled.unique {α : Type} {letter : Sextet → α} (hletter : Function.Injective letter)
    {text : Nat × List α} {p q : Piece} (hp : Spelled letter text p) (hq : Spelled letter text q) :
    p = q := by
  obtain ⟨line, values⟩ := p
  obtain ⟨line', values'⟩ := q
  obtain ⟨hline, -, digits, hdigits, hspells⟩ := hp
  obtain ⟨hline', -, digits', hdigits', hspells'⟩ := hq
  obtain rfl : digits = digits' :=
    (List.map_inj_right hletter).mp (hdigits.symm.trans hdigits')
  rw [Piece.mk.injEq]
  exact ⟨hline.trans hline'.symm, hspells.unique hspells'⟩

/-! ## Running sums -/

/-- The sum of the numbers at one place in their pieces. -/
def valueSum (i : Nat) (pieces : List Piece) : Int := (pieces.filterMap (·.values[i]?)).sum

/-- The sum of the first numbers on one line. -/
def columnSum (line : Nat) (pieces : List Piece) : Int :=
  valueSum 0 (pieces.filter (·.line = line))

@[simp] theorem valueSum_nil (i : Nat) : valueSum i [] = 0 := rfl

@[simp] theorem valueSum_append_singleton (i : Nat) (pieces : List Piece) (p : Piece) :
    valueSum i (pieces ++ [p]) = valueSum i pieces + p.values[i]?.getD 0 := by
  cases h : p.values[i]? <;> simp [valueSum, h]

@[simp] theorem columnSum_append_singleton (line : Nat) (pieces : List Piece) (p : Piece) :
    columnSum line (pieces ++ [p]) =
      columnSum line pieces + if p.line = line then p.values[0]?.getD 0 else 0 := by
  by_cases h : p.line = line <;> simp [columnSum, List.filter_append, h]

theorem columnSum_eq_zero {line : Nat} {pieces : List Piece} (h : ∀ p ∈ pieces, p.line ≠ line) :
    columnSum line pieces = 0 := by
  have hnil : pieces.filter (·.line = line) = [] := by
    simpa [List.filter_eq_nil_iff] using h
  simp [columnSum, hnil]

/-- A number of 32 bits. -/
def Fits (x : Int) : Prop := 0 ≤ x ∧ x < UInt32.size

/-- The sums after the last of some pieces have 32 bits: the one of its line, and those of the
whole text. -/
structure SumsFit (line : Nat) (pieces : List Piece) : Prop where
  column : Fits (columnSum line pieces)
  source : Fits (valueSum 1 pieces)
  sourceLine : Fits (valueSum 2 pieces)
  sourceColumn : Fits (valueSum 3 pieces)
  name : Fits (valueSum 4 pieces)

/-- The sums after each of some pieces have 32 bits, others standing in front of them. -/
def AllFit (sofar : List Piece) : List Piece → Prop
  | [] => True
  | p :: pieces => SumsFit p.line (sofar ++ [p]) ∧ AllFit (sofar ++ [p]) pieces

/-- The segment of a piece: the sums up to it. -/
def segmentAt (sofar : List Piece) (p : Piece) : Segment where
  line := UInt32.ofNat p.line
  column := UInt32.ofNat (columnSum p.line sofar).toNat
  origin :=
    if p.values.length = 1 then none
    else some
      { source := UInt32.ofNat (valueSum 1 sofar).toNat
        line := UInt32.ofNat (valueSum 2 sofar).toNat
        column := UInt32.ofNat (valueSum 3 sofar).toNat
        name := if p.values.length = 4 then none
          else some (UInt32.ofNat (valueSum 4 sofar).toNat) }

/-- The segments of pieces that follow some others. -/
def segmentsFrom (sofar : List Piece) : List Piece → List Segment
  | [] => []
  | p :: pieces => segmentAt (sofar ++ [p]) p :: segmentsFrom (sofar ++ [p]) pieces

theorem length_segmentsFrom {sofar pieces : List Piece} :
    (segmentsFrom sofar pieces).length = pieces.length := by
  induction pieces generalizing sofar with
  | nil => rfl
  | cons p pieces ih => rw [segmentsFrom, List.length_cons, List.length_cons, ih]

theorem allFit_iff {sofar pieces : List Piece} :
    AllFit sofar pieces ↔ ∀ k p, pieces[k]? = some p →
      SumsFit p.line (sofar ++ pieces.take (k + 1)) := by
  induction pieces generalizing sofar with
  | nil => simp [AllFit]
  | cons p pieces ih =>
    rw [AllFit, ih]
    constructor
    · rintro ⟨hp, hrest⟩ k q hq
      cases k with
      | zero =>
        obtain rfl : p = q := by simpa using hq
        simpa using hp
      | succ k => simpa using hrest k q (by simpa using hq)
    · intro h
      refine ⟨by simpa using h 0 p rfl, fun k q hq => ?_⟩
      simpa using h (k + 1) q (by simpa using hq)

theorem segmentsFrom_getElem? {sofar pieces : List Piece} (k : Nat) :
    (segmentsFrom sofar pieces)[k]? =
      pieces[k]?.map (segmentAt (sofar ++ pieces.take (k + 1))) := by
  induction pieces generalizing sofar k with
  | nil => simp [segmentsFrom]
  | cons p pieces ih =>
    cases k with
    | zero => simp [segmentsFrom]
    | succ k => simp [segmentsFrom, ih]

end MapChain.MappingText
