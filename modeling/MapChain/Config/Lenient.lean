import MapChain.Json.Reader
import MapChain.Text.Whitespace

/-!
# Lenient JSON

Configuration documents are JSON with comments, with a comma allowed after the last item of an array
or object, and with a byte order mark allowed at the start. A document is read in three steps: the
mark is dropped, then the comments, then the commas, and what is left has to be JSON and an object.

The two cleaning steps know no more of JSON than where strings begin and end. A comment leaves
nothing behind, and one that is not closed reaches to the end of the document.
-/

namespace MapChain.Lenient

/-! ## The mark -/

/-- A document without a byte order mark at its start. -/
def dropMark : List Char → List Char
  | '\ufeff' :: cs => cs
  | cs => cs

/-! ## Comments -/

/-- What a character of a document can be part of. -/
inductive Region where
  | plain
  | string
  | lineComment
  | blockComment
  deriving DecidableEq, Repr

/-- Drops comments, starting in a region. A line comment ends before its line feed, which is
kept. -/
def dropCommentsFrom : Region → List Char → List Char
  | _, [] => []
  | .plain, '"' :: cs => '"' :: dropCommentsFrom .string cs
  | .plain, '/' :: '/' :: cs => dropCommentsFrom .lineComment cs
  | .plain, '/' :: '*' :: cs => dropCommentsFrom .blockComment cs
  | .plain, c :: cs => c :: dropCommentsFrom .plain cs
  | .string, '"' :: cs => '"' :: dropCommentsFrom .plain cs
  | .string, '\\' :: c :: cs => '\\' :: c :: dropCommentsFrom .string cs
  | .string, c :: cs => c :: dropCommentsFrom .string cs
  | .lineComment, '\n' :: cs => '\n' :: dropCommentsFrom .plain cs
  | .lineComment, _ :: cs => dropCommentsFrom .lineComment cs
  | .blockComment, '*' :: '/' :: cs => dropCommentsFrom .plain cs
  | .blockComment, _ :: cs => dropCommentsFrom .blockComment cs

/-- A document without its comments. -/
def dropComments (text : List Char) : List Char := dropCommentsFrom .plain text

/-! ## Trailing commas -/

/-- Whether the next character that is not white space closes an array or object. -/
def closesNext (cs : List Char) : Bool :=
  match cs.dropWhile Text.isBlank with
  | c :: _ => c == '\x7d' || c == ']'
  | [] => false

/-- Drops every comma before a closing bracket, starting inside a string or outside. -/
def dropCommasFrom : Bool → List Char → List Char
  | _, [] => []
  | false, '"' :: cs => '"' :: dropCommasFrom true cs
  | false, ',' :: cs =>
    if closesNext cs then dropCommasFrom false cs else ',' :: dropCommasFrom false cs
  | false, c :: cs => c :: dropCommasFrom false cs
  | true, '"' :: cs => '"' :: dropCommasFrom false cs
  | true, '\\' :: c :: cs => '\\' :: c :: dropCommasFrom true cs
  | true, c :: cs => c :: dropCommasFrom true cs

/-- A document without commas before closing brackets. -/
def dropCommas (text : List Char) : List Char := dropCommasFrom false text

/-! ## Documents -/

/-- Why a text is no document. -/
inductive DocumentFault where
  /-- What is left after cleaning is no JSON. -/
  | malformed
  /-- It is JSON, but no object. -/
  | notObject (value : Json)

/-- A text as strict JSON would have it. -/
def clean (text : List Char) : List Char := dropCommas (dropComments (dropMark text))

/-- Reads a document. -/
def readChars (text : List Char) : Except DocumentFault Fields :=
  match Json.ofChars? (clean text) with
  | some (.object members) => .ok members
  | some v => .error (.notObject v)
  | none => .error .malformed

/-- Reads a document. -/
def read (text : String) : Except DocumentFault Fields := readChars text.toList

end MapChain.Lenient
