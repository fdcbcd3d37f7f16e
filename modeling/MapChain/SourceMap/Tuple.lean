import MapChain.Json.Shape
import MapChain.SourceMap.Position

/-!
# Mapping tuples

The second way to exchange mappings is a stream of tuples: a generated line and column, then where
there is an origin its line and column, then a name. A tuple has two, four or five elements. An
origin with a null coordinate is no origin, and one on line zero cannot be traced.

A name without an origin can be read but is not written.
-/

namespace MapChain

/-- One mapping of a stream. -/
structure MappingTuple where
  generated : Position
  origin : Option Position
  name : Option String
  deriving DecidableEq, Repr

namespace MappingTuple

/-- The origin, unless it is on line zero. -/
def traceable? (t : MappingTuple) : Option Position := t.origin.filter (·.line ≠ 0)

/-! ## Reading -/

/-- The origin that two coordinates make. -/
def originOf (line column : Option UInt32) : Option Position := do return ⟨← line, ← column⟩

/-- Reads the elements of a tuple from left to right; the first fault counts. -/
def ofItems : List Json → Json.Shaped MappingTuple
  | [] => .error (.tupleLength 0)
  | line :: rest => do
    let line ← Json.Shape.uint32 line
    match rest with
    | [] => .error (.tupleLength 1)
    | column :: rest =>
      let column ← Json.Shape.uint32 column
      let generated : Position := ⟨line, column⟩
      match rest with
      | [] => return ⟨generated, none, none⟩
      | sourceLine :: rest =>
        let sourceLine ← Json.Shape.nullable Json.Shape.uint32 sourceLine
        match rest with
        | [] => .error (.tupleLength 3)
        | sourceColumn :: rest =>
          let sourceColumn ← Json.Shape.nullable Json.Shape.uint32 sourceColumn
          let origin := originOf sourceLine sourceColumn
          match rest with
          | [] => return ⟨generated, origin, none⟩
          | name :: rest =>
            let name ← Json.Shape.nullable Json.Shape.string name
            match rest with
            | [] => return ⟨generated, origin, name⟩
            | _ :: _ => .error (.tupleLength 6)

/-- Reads a tuple. -/
def ofJson : Json.ShapeReader MappingTuple
  | .array items => ofItems items
  | _ => .error .mismatch

/-- Reads a stream of tuples. -/
def streamOfJson : Json.ShapeReader (List MappingTuple) := Json.Shape.list ofJson

/-! ## Writing -/

/-- The tuple as JSON. -/
def toJson (t : MappingTuple) : Json :=
  .array <|
    [.ofUInt32 t.generated.line, .ofUInt32 t.generated.column] ++
    match t.origin with
    | none => []
    | some o => [.ofUInt32 o.line, .ofUInt32 o.column] ++ (t.name.map Json.string).toList

/-- A stream of tuples as JSON. -/
def streamToJson (ts : List MappingTuple) : Json := .array (ts.map toJson)

end MappingTuple

end MapChain
