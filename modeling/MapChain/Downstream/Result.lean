import MapChain.Downstream.Error
import MapChain.SourceMap.Lookup
import MapChain.SourceMap.Tuple

/-!
# Results of the downstream transformer

The downstream transformer returns an object. Three of its members have a meaning here: the
generated `code`, the `map` from it and the `ast`, a syntax tree whose nodes carry positions. All
others belong to the caller and pass through untouched.

`DownstreamShape.classify` sorts a result by how it carries positions. A tree counts for more than a
map; without one a map is a stream of tuples or a document, which may be given as text, and no map
is an empty stream.
-/

namespace MapChain

/-! ## Inputs -/

/-- What the downstream transformer is asked to transform. -/
structure DownstreamInput where
  source : String
  fileName : String
  options : Json

/-- The request in the transformer's terms. -/
def DownstreamInput.toJson (i : DownstreamInput) : Json :=
  .object [("src", .string i.source), ("filename", .string i.fileName), ("options", i.options)]

/-- A transformer that works in a monad `m`. -/
abbrev Transformer (m : Type → Type) := DownstreamInput → m (Except DownstreamError Fields)

/-- The generated code of a result, if it has one that is text. -/
def Fields.code? (fields : Fields) : Option String := (fields.get? "code").bind Json.string?

/-! ## Shapes -/

/-- A result sorted by how it carries positions, with the members that pass through. -/
inductive DownstreamShape where
  /-- The positions are in a stream of mapping tuples. -/
  | tuples (mappings : List MappingTuple) (fields : Fields)
  /-- The positions are in a source map. -/
  | structured (map : SourceMap) (fields : Fields)
  /-- The positions are in the nodes of a tree. -/
  | tree (ast : Json) (fields : Fields)

namespace DownstreamShape

/-- The members that pass through. -/
def fields : DownstreamShape → Fields
  | .tuples _ fields | .structured _ fields | .tree _ fields => fields

/-- Sorts the map of a result without a tree. -/
def ofMap (fields : Fields) : Option Json → Except DownstreamError DownstreamShape
  | none | some .null => .ok (.tuples [] fields)
  | some (.bool _) => .error (.unexpectedMap "boolean")
  | some (.number _) => .error (.unexpectedMap "number")
  | some (.string s) =>
    match SourceMap.ofText s with
    | .ok map => .ok (.structured map fields)
    | .error e => .error (.invalidMap e)
  | some (.array items) =>
    match MappingTuple.streamOfJson (.array items) with
    | .ok ts => .ok (.tuples ts fields)
    | .error e => .error (.invalidTuples e)
  | some (.object members) =>
    match SourceMap.ofJson (.object members) with
    | .ok map => .ok (.structured map fields)
    | .error e => .error (.invalidMap e)

/-- Sorts a result. -/
def classify (result : Fields) : Except DownstreamError DownstreamShape :=
  let fields := (result.erase "map").erase "ast"
  match result.get? "ast" with
  | none | some .null => ofMap fields (result.get? "map")
  | some ast => .ok (.tree ast fields)

end DownstreamShape

end MapChain
