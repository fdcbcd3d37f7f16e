import MapChain.Compose.Relocate
import MapChain.Downstream.Result
import MapChain.SourceMap.Builder

/-!
# Composing two stages

The compiler's map leads from the compiled text to the typed source, and the downstream
transformer's positions lead from its output to the compiled text. Composing follows both: a
position of the output is traced to the compiled text and from there to the typed source. What one
of the two steps does not resolve is dropped, so composing never fails.

The composed positions take the shape the downstream transformer used: a stream of tuples in the
same order, a document of its own with the typed source in it, or the same tree with its locations
moved.
-/

namespace MapChain

/-! ## Tuples -/

/-- A tuple whose origin is traced one stage further. -/
def composeTuple? (stage1 : SourceMap) (t : MappingTuple) : Option MappingTuple := do
  let middle ← t.traceable?
  let origin ← stage1.trace middle
  return { t with origin := some origin.position }

/-- Composes a stream of tuples. -/
def composeTuples (stage1 : SourceMap) (ts : List MappingTuple) : List MappingTuple :=
  ts.filterMap (composeTuple? stage1)

/-! ## Documents -/

/-- A mapping whose origin is traced one stage further: the generated position, the position in the
typed source, and the name the second stage gives. -/
def composeMapping? (stage1 : SourceMap) (m : Mapping) :
    Option (Position × Position × Option String) := do
  let middle ← m.origin
  if middle.position.line = 0 then none
  else
    let origin ← stage1.trace middle.position
    return (m.generated, origin.position, middle.name)

/-- Composes a map into a fresh one that attributes everything to one file and embeds its text. -/
def composeDocument (stage1 stage2 : SourceMap) (fileName text : String) : MapDocument :=
  let start := (MapBuilder.empty none).setContent fileName text
  let composed := stage2.mappings.filterMap (composeMapping? stage1)
  let built := composed.foldl
    (fun b (generated, origin, name) => b.add generated (some (fileName, origin)) name) start
  built.toDocument

/-! ## Results -/

/-- Composed mappings in one of their two forms. -/
inductive ComposedMap where
  | tuples (mappings : List MappingTuple)
  | document (d : MapDocument)
  deriving DecidableEq, Repr

/-- The mappings as JSON. -/
def ComposedMap.toJson : ComposedMap → Json
  | .tuples ts => MappingTuple.streamToJson ts
  | .document d => d.toJson

/-- A finished transform: the composed positions, as a map or in a tree, and the members that pass
through. A result without either is passed through as a whole. -/
structure TransformResult where
  map : Option ComposedMap
  ast : Option Json
  fields : Fields

namespace TransformResult

/-- A result that is passed through as a whole. -/
def passThrough (result : Fields) : TransformResult := ⟨none, none, result⟩

/-- The generated code, if there is some that is text. -/
def code? (r : TransformResult) : Option String := r.fields.code?

/-- The result as one JSON object with its members sorted. -/
def toValue (r : TransformResult) : Json :=
  let withMap : Fields := match r.map with
    | some map => r.fields.insert "map" map.toJson.sorted
    | none => r.fields
  let withTree : Fields := match r.ast with
    | some ast => withMap.insert "ast" ast
    | none => withMap
  .object withTree

/-- The result as it is sent: the map or the tree first, then the other members. -/
def toWire (r : TransformResult) : Json :=
  .object <|
    (r.map.map fun map => ("map", map.toJson)).toList ++ (r.ast.map ("ast", ·)).toList ++ r.fields

end TransformResult

/-- Composes the compiler's map with a result of the downstream stage. -/
def compose (stage1 : SourceMap) (stage2 : DownstreamShape) (fileName text : String) :
    TransformResult :=
  match stage2 with
  | .tuples ts fields => ⟨some (.tuples (composeTuples stage1 ts)), none, fields⟩
  | .structured map fields =>
    ⟨some (.document (composeDocument stage1 map fileName text)), none, fields⟩
  | .tree ast fields => ⟨none, some (relocate stage1 ast).1, fields⟩

end MapChain
