import MapChain.SourceMap.Error

/-!
# Source map documents

A source map of version 3 as it is exchanged: a JSON object with the tables of sources and names and
the mapping text, which is not decoded here. `MapDocument.ofText` and `MapDocument.ofJson` read one
and `MapDocument.toJson` writes one, with its members in the order of their declaration and absent
ones left out.

Members that are not known do not matter. In a text a known member may occur once only, and an
unknown one may hold anything that the grammar allows, however deep or large.
-/

namespace MapChain

/-- A source map document. -/
structure MapDocument where
  version : UInt32
  /-- The name of the generated file. -/
  file : Option String
  /-- What stands in front of every source. -/
  sourceRoot : Option String
  sources : List String
  /-- The texts of the sources, in their order. -/
  sourcesContent : Option (List (Option String))
  names : List String
  mappings : String
  deriving DecidableEq, Repr

namespace MapDocument

/-! ## Reading -/

/-- The only version there is. -/
def supportedVersion : UInt32 := 3

/-- The members in the order of their declaration. -/
def memberNames : List String :=
  ["version", "file", "sourceRoot", "sources", "sourcesContent", "names", "mappings"]

/-- Reads the members of a document. -/
def ofFields (fields : Fields) : Json.Shaped MapDocument := do
  let version ← Json.Shape.required fields "version" Json.Shape.uint32
  let file ← Json.Shape.optional fields "file" Json.Shape.string
  let sourceRoot ← Json.Shape.optional fields "sourceRoot" Json.Shape.string
  let sources ← Json.Shape.defaulted fields "sources" [] (Json.Shape.list Json.Shape.string)
  let sourcesContent ← Json.Shape.optional fields "sourcesContent"
    (Json.Shape.list (Json.Shape.nullable Json.Shape.string))
  let names ← Json.Shape.defaulted fields "names" [] (Json.Shape.list Json.Shape.string)
  let mappings ← Json.Shape.required fields "mappings" Json.Shape.string
  return { version, file, sourceRoot, sources, sourcesContent, names, mappings }

/-- Accepts a document of the version that is understood. -/
def validated : Json.Shaped MapDocument → Except MapError MapDocument
  | .error _ => .error .invalidJson
  | .ok d => if d.version = supportedVersion then .ok d else .error (.unsupportedVersion d.version)

/-- Reads a document from a JSON value. -/
def ofJson (v : Json) : Except MapError MapDocument :=
  validated (Json.Shape.record memberNames v >>= ofFields)

/-- The known members among those of a tree, or nothing when one of them occurs twice or a name
spells no text. -/
def knownMembers? (members : List (List Char × Json.Tree)) : Option Fields := do
  let named ← members.mapM fun (k, t) => (Json.Quoted.decode? k).map (·, t)
  let known := named.filter (memberNames.contains ·.1)
  if (known.map (·.1)).Nodup then known.mapM fun (n, t) => (Json.ofTree? t).map (n, ·) else none

/-- The members of a document's tree. -/
def fieldsOfTree : Json.Tree → Json.Shaped Fields
  | .object members => Json.Shape.require (knownMembers? members)
  | .array items =>
    Json.Shape.require (Json.itemsOfTrees? items) >>= fun vs =>
      Json.Shape.record memberNames (.array vs)
  | _ => .error .mismatch

/-- Reads a document from a text. -/
def ofText (text : String) : Except MapError MapDocument :=
  validated (Json.Shape.require (Json.Tree.ofText? text.toList) >>= fieldsOfTree >>= ofFields)

/-! ## Writing -/

/-- A member that is left out when there is no value. -/
def optionalMember (name : String) : Option Json → List (String × Json)
  | none => []
  | some v => [(name, v)]

/-- The document as JSON. -/
def toJson (d : MapDocument) : Json :=
  .object <|
    [("version", .ofUInt32 d.version)] ++
    optionalMember "file" (d.file.map .string) ++
    optionalMember "sourceRoot" (d.sourceRoot.map .string) ++
    [("sources", .array (d.sources.map .string))] ++
    optionalMember "sourcesContent" (d.sourcesContent.map fun cs => .array (cs.map .ofString?)) ++
    [("names", .array (d.names.map .string)), ("mappings", .string d.mappings)]

/-- The document as compact JSON text. -/
def toText (d : MapDocument) : String := d.toJson.compact

/-! ## Embedded texts -/

/-- The embedded text of the first source of this name. -/
def sourceContent? (d : MapDocument) (source : String) : Option String := do
  let i ← d.sources.findIdx? (· == source)
  let contents ← d.sourcesContent
  (← contents[i]?)

end MapDocument

end MapChain
