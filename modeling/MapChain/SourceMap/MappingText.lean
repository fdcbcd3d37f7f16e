import MapChain.SourceMap.Position
import MapChain.SourceMap.Vlq

/-!
# Mapping texts

The `mappings` member of a source map is a text of segments. A semicolon ends a generated line and a
comma separates the segments of one line. A segment has one, four or five numbers: its generated
column; then the index of a source, a line and a column in it; then the index of a name. Each number
is written relative to the one before it of its kind, and the generated column starts over on every
line. All of them, and the lines, are 32-bit and counted from zero.

## Reading

`decode` takes the text one symbol at a time, so whether it fails and where depends on nothing that
follows. A fault is reported at the symbol that shows it, or at the end of the text.

## Writing

`encode` writes segments that are ordered by generated position.
-/

namespace MapChain

/-! ## Segments -/

/-- Where a segment comes from: indices into the tables of its map, and a place counted from
zero. -/
structure SegmentOrigin where
  source : UInt32
  line : UInt32
  column : UInt32
  name : Option UInt32
  deriving DecidableEq, Repr

/-- A segment with absolute numbers, counted from zero. -/
structure Segment where
  line : UInt32
  column : UInt32
  origin : Option SegmentOrigin
  deriving DecidableEq, Repr

namespace MappingText

/-! ## Running totals -/

/-- The numbers that the next segment is relative to. -/
structure Totals where
  line : Nat
  column : Nat
  source : Nat
  sourceLine : Nat
  sourceColumn : Nat
  name : Nat
  deriving DecidableEq, Repr

/-- The totals at the start of a text. -/
def Totals.start : Totals := ⟨0, 0, 0, 0, 0, 0⟩

/-- Adds a relative number to a total, which has to stay in the 32-bit range. -/
def add (field : SegmentField) (total : Nat) (delta : Int) : Except MappingFault Nat :=
  let sum := (total : Int) + delta
  if sum < 0 then .error (.negative field)
  else if UInt32.size ≤ sum then .error (.outOfRange field)
  else .ok sum.toNat

/-- Starts the next line. -/
def Totals.nextLine (t : Totals) : Except MappingFault Totals :=
  if t.line + 1 < UInt32.size then .ok { t with line := t.line + 1, column := 0 }
  else .error .tooManyLines

/-- Adds the three numbers that say where a segment comes from. -/
def Totals.moveOrigin (t : Totals) (source line column : Int) : Except MappingFault Totals := do
  let source ← add .sourceIndex t.source source
  let sourceLine ← add .sourceLine t.sourceLine line
  let sourceColumn ← add .sourceColumn t.sourceColumn column
  return { t with source, sourceLine, sourceColumn }

/-- The segment at the totals, with its origin and name as far as it has them. -/
def Totals.segment (t : Totals) (hasOrigin hasName : Bool) : Segment where
  line := UInt32.ofNat t.line
  column := UInt32.ofNat t.column
  origin :=
    if hasOrigin then
      some
        { source := UInt32.ofNat t.source
          line := UInt32.ofNat t.sourceLine
          column := UInt32.ofNat t.sourceColumn
          name := if hasName then some (UInt32.ofNat t.name) else none }
    else none

/-- The segment that relative numbers make, and the totals after it. The generated column is checked
before the count of the numbers. -/
def Totals.advance (t : Totals) : List Int → Except MappingFault (Option Segment × Totals)
  | [] => .ok (none, t)
  | column :: fields => do
    let t := { t with column := ← add .generatedColumn t.column column }
    match fields with
    | [] => return (some (t.segment false false), t)
    | [source, line, column] =>
      let t ← t.moveOrigin source line column
      return (some (t.segment true false), t)
    | [source, line, column, name] =>
      let t ← t.moveOrigin source line column
      let t := { t with name := ← add .nameIndex t.name name }
      return (some (t.segment true true), t)
    | _ => .error .wrongFieldCount

/-! ## Reading -/

/-- Where the reader stands: the totals before the segment at hand, the numbers of it that are
complete, and the one that is not. -/
structure Reader where
  totals : Totals
  fields : List Int
  current : Option Vlq.Partial
  deriving DecidableEq, Repr

/-- The reader at the start of a text. -/
def Reader.start : Reader := ⟨.start, [], none⟩

/-- The most numbers a segment has. -/
def maxFields : Nat := 5

namespace Reader

/-- Takes a digit of a number. -/
def pushDigit (r : Reader) (p : Vlq.Partial) (d : Sextet) : Except MappingFault Reader :=
  match p.push d with
  | .error f => .error f
  | .ok (.more p) => .ok { r with current := some p }
  | .ok (.done v) => .ok { r with fields := r.fields ++ [v], current := none }

/-- Ends the segment at hand, if there is one. -/
def close (r : Reader) : Except MappingFault (Option Segment × Reader) := do
  let (segment, totals) ← r.totals.advance r.fields
  return (segment, ⟨totals, [], none⟩)

/-- Takes one symbol, and returns the segment that it ends. -/
def step (r : Reader) (symbol : Symbol) : Except MappingFault (Option Segment × Reader) :=
  match r.current, symbol with
  | some p, .digit d => do return (none, ← r.pushDigit p d)
  -- A number cannot be left open
  | some _, _ => .error .notBase64
  | none, .comma => r.close
  | none, .semicolon => do
    let (segment, r) ← r.close
    return (segment, { r with totals := ← r.totals.nextLine })
  -- Between numbers, where a further one may begin
  | none, symbol =>
    if r.fields.length = maxFields then .error .tooManyFields
    else match symbol with
      | .digit d => do return (none, ← r.pushDigit .empty d)
      | _ => .error .notBase64

/-- Ends the text, and returns the segment that this ends. -/
def finish (r : Reader) : Except MappingFault (Option Segment) :=
  match r.current with
  | some _ => .error .unterminated
  | none => do return (← r.close).1

/-- Reads a text whose first symbol is at the given offset. -/
def run (r : Reader) (offset : Nat) : List Symbol → Except (Nat × MappingFault) (List Segment)
  | [] =>
    match r.finish with
    | .error f => .error (offset, f)
    | .ok segment => .ok segment.toList
  | symbol :: text =>
    match r.step symbol with
    | .error f => .error (offset, f)
    | .ok (segment, r) =>
      match run r (offset + 1) text with
      | .error e => .error e
      | .ok segments => .ok (segment.toList ++ segments)

end Reader

/-- The symbols of a text, one for each byte. -/
def symbols (text : String) : List Symbol := text.toUTF8.toList.map Symbol.ofByte

/-- The segments of a text in its order, or the first fault with its byte offset. -/
def decode (text : String) : Except (Nat × MappingFault) (List Segment) :=
  Reader.start.run 0 (symbols text)

/-! ## Writing -/

/-- The numbers of a segment relative to the totals. -/
def Totals.relative (t : Totals) (s : Segment) : List Int :=
  ((s.column.toNat : Int) - t.column) ::
    match s.origin with
    | none => []
    | some o =>
      [(o.source.toNat : Int) - t.source, (o.line.toNat : Int) - t.sourceLine,
        (o.column.toNat : Int) - t.sourceColumn] ++
      match o.name with
      | none => []
      | some name => [(name.toNat : Int) - t.name]

/-- The totals after a segment on the line at hand. -/
def Totals.move (t : Totals) (s : Segment) : Totals :=
  let t := { t with column := s.column.toNat }
  match s.origin with
  | none => t
  | some o =>
    { t with
      source := o.source.toNat
      sourceLine := o.line.toNat
      sourceColumn := o.column.toNat
      name := (o.name.map UInt32.toNat).getD t.name }

/-- Writes numbers one after the other. -/
def encodeFields (fields : List Int) : List Symbol :=
  fields.flatMap fun v => (Vlq.encode v).map Symbol.digit

/-- Writes segments after the totals; `first` says that the line at hand has none so far. -/
def encodeFrom (t : Totals) (first : Bool) : List Segment → List Symbol
  | [] => []
  | s :: segments =>
    let skipped := s.line.toNat - t.line
    let first := first || 0 < skipped
    let t := if 0 < skipped then { t with line := s.line.toNat, column := 0 } else t
    List.replicate skipped .semicolon ++ (if first then [] else [.comma]) ++
      encodeFields (t.relative s) ++ encodeFrom (t.move s) false segments

/-- The character of a symbol. -/
def symbolChar (s : Symbol) : Char := Char.ofNat s.toByte.toNat

/-- Writes segments ordered by generated position. -/
def encode (segments : List Segment) : String :=
  String.ofList ((encodeFrom .start true segments).map symbolChar)

end MappingText

end MapChain
