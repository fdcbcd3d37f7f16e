import MapChain.SourceMap.Lookup

/-!
# Building source maps

`MapBuilder` collects mappings and writes them as a document. Sources and names enter its tables in
the order of their first use. Mappings may be added in any order: the document has them by generated
position, and those at one position as they were added.

A name is recorded only together with an origin. A line of zero is written like line one.
-/

namespace MapChain

/-- A mapping that has been added: its origin is given by index and position, and its name by
index. -/
structure PendingMapping where
  generated : Position
  origin : Option (Nat × Position)
  name : Option Nat
  deriving DecidableEq, Repr

/-- A source map that is being built. -/
structure MapBuilder where
  /-- The name of the generated file. -/
  file : Option String
  sources : List SourceFile
  names : List String
  /-- The mappings in the order they were added. -/
  pending : Array PendingMapping
  deriving DecidableEq, Repr

namespace MapBuilder

/-- A builder without mappings. -/
def empty (file : Option String) : MapBuilder := ⟨file, [], [], #[]⟩

/-- The number of mappings added. -/
def size (b : MapBuilder) : Nat := b.pending.size

/-! ## Tables -/

/-- The place of a name in a table, which it enters at the end if it is new. -/
def internName (names : List String) (name : String) : List String × Nat :=
  match names.findIdx? (· == name) with
  | some i => (names, i)
  | none => (names ++ [name], names.length)

/-- The place of a source in a table, which it enters at the end if it is new. -/
def internSource (sources : List SourceFile) (source : String) : List SourceFile × Nat :=
  match sources.findIdx? (·.name == source) with
  | some i => (sources, i)
  | none => (sources ++ [⟨source, none⟩], sources.length)

/-! ## Adding -/

/-- Adds a mapping. -/
def add (b : MapBuilder) (generated : Position) (origin : Option (String × Position))
    (name : Option String) : MapBuilder :=
  match origin with
  | none => { b with pending := b.pending.push ⟨generated, none, none⟩ }
  | some (source, position) =>
    let (sources, i) := internSource b.sources source
    match name with
    | none =>
      { b with sources, pending := b.pending.push ⟨generated, some (i, position), none⟩ }
    | some name =>
      let (names, j) := internName b.names name
      { b with
        sources, names, pending := b.pending.push ⟨generated, some (i, position), some j⟩ }

/-- Embeds the text of a source. -/
def setContent (b : MapBuilder) (source content : String) : MapBuilder :=
  let (sources, i) := internSource b.sources source
  { b with sources := sources.modify i fun s => { s with content := some content } }

/-! ## Writing -/

/-- The segment of a mapping, with lines counted from zero. -/
def segment (m : PendingMapping) : Segment where
  line := UInt32.ofNat (m.generated.line.toNat - 1)
  column := m.generated.column
  origin := m.origin.map fun (i, position) =>
    { source := UInt32.ofNat i
      line := UInt32.ofNat (position.line.toNat - 1)
      column := position.column
      name := m.name.map UInt32.ofNat }

/-- The document of the mappings added so far. Texts are left out when no source has one. -/
def toDocument (b : MapBuilder) : MapDocument where
  version := MapDocument.supportedVersion
  file := b.file
  sourceRoot := none
  sources := b.sources.map (·.name)
  sourcesContent :=
    if b.sources.any (·.content.isSome) then some (b.sources.map (·.content)) else none
  names := b.names
  mappings :=
    MappingText.encode
      ((b.pending.toList.mergeSort fun a b => a.generated ≤ b.generated).map segment)

end MapBuilder

end MapChain
