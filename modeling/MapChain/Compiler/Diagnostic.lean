import MapChain.Json.Shape
import MapChain.Text.Lines

/-!
# Compiler diagnostics

What the compiler reports about a file: a category, a code, a message and the part of the file it is
about. The message is a text or a chain, which is a headline with details nested below it. Positions
count UTF-16 units of the file.
-/

namespace MapChain

/-! ## Messages -/

/-- A headline and the details below it. -/
inductive MessageChain where
  | node (text : String) (next : List MessageChain)

namespace MessageChain

mutual

/-- Writes a chain at a level of nesting: every level below the first starts a new line, indented by
two spaces more than the one above. -/
def writeFrom (newLine : String) (level : Nat) : MessageChain → String
  | .node text next =>
    (if level = 0 then "" else newLine ++ String.ofList (List.replicate (2 * level) ' ')) ++ text ++
      writeAll newLine (level + 1) next

/-- Writes chains of one level. -/
def writeAll (newLine : String) (level : Nat) : List MessageChain → String
  | [] => ""
  | c :: next => c.writeFrom newLine level ++ writeAll newLine level next

end

/-! ## Reading chains

A chain is a record of a text and of the chains below it, which may be left out. -/

mutual

/-- Reads a chain. -/
def ofJson : Json.ShapeReader MessageChain
  | .object members => do
    let text ← Json.Shape.required members "messageText" Json.Shape.string
    return .node text (← nextOfMembers members)
  | .array [] => .error .mismatch
  | .array [text] => do return .node (← Json.Shape.string text) []
  | .array [text, next] => do return .node (← Json.Shape.string text) (← listOfJson next)
  | _ => .error .mismatch

/-- Reads the chains below a headline from the members of its record. -/
def nextOfMembers : List (String × Json) → Json.Shaped (List MessageChain)
  | [] => .ok []
  | (n, v) :: members => if n = "next" then listOfJson v else nextOfMembers members

/-- Reads an array of chains. -/
def listOfJson : Json.ShapeReader (List MessageChain)
  | .array items => listOfItems items
  | _ => .error .mismatch

/-- Reads each of several chains. -/
def listOfItems : List Json → Json.Shaped (List MessageChain)
  | [] => .ok []
  | v :: items => do return (← ofJson v) :: (← listOfItems items)

end

mutual

/-- The chain as JSON. -/
def toJson : MessageChain → Json
  | .node text next => .object [("messageText", .string text), ("next", .array (listToJson next))]

/-- Chains as JSON. -/
def listToJson : List MessageChain → List Json
  | [] => []
  | c :: next => c.toJson :: listToJson next

end

end MessageChain

/-- The message of a diagnostic. -/
inductive DiagnosticMessage where
  | text (s : String)
  | chain (c : MessageChain)

namespace DiagnosticMessage

/-- The message in full, with the given line break. -/
def flatten (newLine : String) : DiagnosticMessage → String
  | .text s => s
  | .chain c => c.writeFrom newLine 0

/-- Reads a message. -/
def ofJson : Json.ShapeReader DiagnosticMessage
  | .string s => .ok (.text s)
  | v => (MessageChain.ofJson v).map .chain

/-- The message as JSON. -/
def toJson : DiagnosticMessage → Json
  | .text s => .string s
  | .chain c => c.toJson

end DiagnosticMessage

/-! ## Categories -/

/-- How serious a diagnostic is. Only an error stops a compilation. -/
inductive DiagnosticCategory where
  | warning | error | suggestion | message
  deriving DecidableEq, Repr

namespace DiagnosticCategory

/-- The name of a category. -/
def name : DiagnosticCategory → String
  | .warning => "Warning"
  | .error => "Error"
  | .suggestion => "Suggestion"
  | .message => "Message"

/-- The category of a name. -/
def ofName? (name : String) : Option DiagnosticCategory :=
  [warning, error, suggestion, message].find? (·.name == name)

/-- Reads a category: its name, or an object whose only member has that name and the value null. -/
def ofJson : Json.ShapeReader DiagnosticCategory
  | .string name => Json.Shape.require (ofName? name)
  | .object [(name, .null)] => Json.Shape.require (ofName? name)
  | _ => .error .mismatch

end DiagnosticCategory

/-! ## Diagnostics -/

/-- A report of the compiler. -/
structure Diagnostic where
  category : DiagnosticCategory
  code : UInt32
  message : DiagnosticMessage
  file : Option String
  /-- Where it begins, in UTF-16 units of the file. -/
  start : Option UInt32
  /-- How far it reaches, in UTF-16 units. -/
  length : Option UInt32

namespace Diagnostic

/-- Whether it stops the compilation. -/
def isError (d : Diagnostic) : Bool := d.category == .error

/-- The members in the order of their declaration. -/
def memberNames : List String := ["category", "code", "messageText", "file", "start", "length"]

/-- Reads a diagnostic. -/
def ofJson (v : Json) : Json.Shaped Diagnostic := do
  let fields ← Json.Shape.record memberNames v
  let category ← Json.Shape.required fields "category" DiagnosticCategory.ofJson
  let code ← Json.Shape.defaulted fields "code" 0 Json.Shape.uint32
  let message ← Json.Shape.required fields "messageText" DiagnosticMessage.ofJson
  let file ← Json.Shape.optional fields "file" Json.Shape.string
  let start ← Json.Shape.optional fields "start" Json.Shape.uint32
  let length ← Json.Shape.optional fields "length" Json.Shape.uint32
  return { category, code, message, file, start, length }

/-- The diagnostic as JSON, with every member. -/
def toJson (d : Diagnostic) : Json :=
  let number : Option UInt32 → Json := fun n => (n.map Json.ofUInt32).getD .null
  .object [("category", .string d.category.name), ("code", .ofUInt32 d.code),
    ("messageText", d.message.toJson), ("file", .ofString? d.file), ("start", number d.start),
    ("length", number d.length)]

/-- The part of a text that it is about, in bytes. It ends with the text at the latest. -/
def span? (d : Diagnostic) (text : List Char) : Option Span := do
  let units := (← d.start).toNat
  let length := (d.length.getD 0).toNat
  let start ← Text.byteOffset? units text
  let stop := (Text.byteOffset? (min (units + length) Span.maxOffset) text).getD
    (Text.utf8Length text)
  return ⟨start, max stop start⟩

end Diagnostic

end MapChain
