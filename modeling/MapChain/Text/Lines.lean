import MapChain.SourceMap.Position
import MapChain.Text.Units

/-!
# Lines of a text

A line index lists the byte offsets at which the lines of a text start: its beginning, and the place
after every line feed. It converts byte offsets to lines and columns, both counted from zero and the
columns in bytes, and back.

A span is a range of bytes with an excluded end. Offsets are 32-bit: a span that would end beyond
the last one ends there.
-/

namespace MapChain

/-! ## Lines and columns -/

/-- A line and a byte column, both counted from zero. -/
structure LineColumn where
  line : Nat
  column : Nat
  deriving DecidableEq, Repr

/-- The same place as a position, whose line is counted from one. -/
def LineColumn.toPosition (p : LineColumn) : Position := Position.ofNat (p.line + 1) p.column

/-- The places at which the lines of a text start, and its length, in bytes. -/
structure LineIndex where
  starts : List Nat
  length : Nat
  deriving DecidableEq, Repr

namespace LineIndex

/-- The places after the line feeds of a text that begins at an offset. -/
def startsAfter (offset : Nat) : List Char → List Nat
  | [] => []
  | c :: text =>
    let next := offset + c.utf8Size
    if c = '\n' then next :: startsAfter next text else startsAfter next text

/-- The index of a text. -/
def ofText (text : List Char) : LineIndex := ⟨0 :: startsAfter 0 text, Text.utf8Length text⟩

/-- The number of lines; there is always one. -/
def lineCount (index : LineIndex) : Nat := index.starts.length

/-- The place at which a line starts. -/
def lineStart? (index : LineIndex) (line : Nat) : Option Nat := index.starts[line]?

/-- The line and column of an offset, which may be at the end of the text but not past it. -/
def lineColumn? (index : LineIndex) (offset : Nat) : Option LineColumn :=
  if index.length < offset then none
  else
    let reached := index.starts.takeWhile (· ≤ offset)
    some ⟨reached.length - 1, offset - reached.getLastD 0⟩

/-- The offset of a line and column. -/
def offset? (index : LineIndex) (p : LineColumn) : Option Nat :=
  (index.lineStart? p.line).map (· + p.column)

end LineIndex

/-! ## Spans -/

/-- The bytes from `start` up to but not including `stop`. -/
structure Span where
  start : Nat
  stop : Nat
  deriving DecidableEq, Repr

namespace Span

/-- The greatest byte offset. -/
def maxOffset : Nat := UInt32.size - 1

/-- The span of a start and a length. -/
def ofLength (start length : Nat) : Span := ⟨start, min (start + length) maxOffset⟩

/-- The number of bytes, unless the span ends before it starts. -/
def length? (s : Span) : Option Nat := if s.start ≤ s.stop then some (s.stop - s.start) else none

/-- Whether the span starts where it ends. -/
def isEmpty (s : Span) : Bool := s.start == s.stop

/-- Whether an offset lies in the span. -/
def contains (s : Span) (offset : Nat) : Bool := s.start ≤ offset && offset < s.stop

end Span

end MapChain
