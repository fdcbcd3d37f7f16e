import MapChain.Compiler.Diagnostic

/-!
# Compile errors

The error that a failed compilation ends with: the message of a diagnostic and, where the diagnostic
points into the file, the line and column of its start. Both count from one, and the column counts
UTF-16 units as the compiler does. They are kept in 32 bits, in which the number behind the last one
is zero.

It is shown as `file (line,column): message`, a format that tools parse.
-/

namespace MapChain

/-- Where a compile error points, counted from one. -/
structure ErrorLocation where
  file : String
  line : UInt32
  column : UInt32
  deriving DecidableEq, Repr

/-- A failed compilation. -/
structure CompileError where
  location : Option ErrorLocation
  message : String
  deriving DecidableEq, Repr

namespace CompileError

/-- The place in a text where a diagnostic starts. -/
def place? (d : Diagnostic) (text : List Char) : Option (UInt32 × UInt32) := do
  let span ← d.span? text
  let index := LineIndex.ofText text
  let place ← index.lineColumn? span.start
  let lineStart ← index.lineStart? place.line
  let before ← Text.slice? lineStart span.start text
  return (UInt32.ofNat place.line + 1, UInt32.ofNat (Text.utf16Length before) + 1)

/-- The error that a diagnostic about a source makes. -/
def ofDiagnostic (d : Diagnostic) (source : String) : CompileError where
  location := do
    let file ← d.file
    let (line, column) ← place? d source.toList
    return ⟨file, line, column⟩
  message := d.message.flatten "\n"

/-- The error as it is shown. -/
def display (e : CompileError) : String :=
  match e.location with
  | some l =>
    l.file ++ " (" ++ toString l.line ++ "," ++ toString l.column ++ "): " ++ e.message
  | none => e.message

end CompileError

end MapChain
