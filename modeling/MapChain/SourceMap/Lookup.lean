import MapChain.SourceMap.Document
import MapChain.SourceMap.MappingText

/-!
# Source maps for lookup

`SourceMap` is a decoded source map. It lists mappings, each from a position in the generated text
to an origin, a position in a named source, or to none. The mappings are ordered by generated
position; at one position an unmapped one comes first, and the others are ordered by the index of
their source, the position in it and the index of their name, an unnamed one first.

`SourceMap.trace` answers where a generated position comes from: the closest mapping at or before it
on the same line decides, and of several at one position the first.
-/

namespace MapChain

/-! ## Mappings -/

/-- A position in a source, with the name that stands there. -/
structure Origin where
  source : String
  position : Position
  name : Option String
  deriving DecidableEq, Repr

/-- A generated position and where it comes from. -/
structure Mapping where
  generated : Position
  origin : Option Origin
  deriving DecidableEq, Repr

/-- A source with its text, where the map embeds it. -/
structure SourceFile where
  name : String
  content : Option String
  deriving DecidableEq, Repr

/-- The text of the first of the sources with this name. -/
def SourceFile.content? (sources : List SourceFile) (name : String) : Option String :=
  (sources.find? (·.name == name)).bind (·.content)

/-- A decoded source map. -/
structure SourceMap where
  /-- The name of the generated file. -/
  file : Option String
  sources : List SourceFile
  mappings : List Mapping
  deriving DecidableEq, Repr

/-! ## The order of segments -/

namespace Segment

/-- The generated position, with its line counted from one. The number behind the last one of 32 bits
is zero. -/
def generated (s : Segment) : Position := ⟨s.line + 1, s.column⟩

/-- Sorts segments: two of them compare as their keys do, number by number. Lines compare as they
are counted from one, so a line that is counted as zero comes first. -/
def sortKey (s : Segment) : List Nat :=
  s.generated.line.toNat :: s.generated.column.toNat ::
    match s.origin with
    | none => [0]
    | some o =>
      1 :: o.source.toNat :: (o.line + 1).toNat :: o.column.toNat ::
        match o.name with
        | none => [0]
        | some name => [1, name.toNat]

/-- Whether one key comes before another or is equal to it. -/
def keyLe : List Nat → List Nat → Bool
  | [], _ => true
  | _ :: _, [] => false
  | a :: as, b :: bs => a < b || (a == b && keyLe as bs)

/-- Any two keys are comparable. -/
theorem keyLe_total : ∀ a b : List Nat, keyLe a b = true ∨ keyLe b a = true
  | [], _ => .inl (by simp [keyLe])
  | _ :: _, [] => .inr (by simp [keyLe])
  | a :: as, b :: bs => by
    have ih := keyLe_total as bs
    simp only [keyLe, Bool.or_eq_true, decide_eq_true_eq, Bool.and_eq_true, beq_iff_eq]
    rcases Nat.lt_trichotomy a b with h | h | h
    · exact .inl (.inl h)
    · exact ih.imp (fun hi => .inr ⟨h, hi⟩) fun hi => .inr ⟨h.symm, hi⟩
    · exact .inr (.inl h)

/-- Keys that are in order stay in order when those between are left out. -/
theorem keyLe_trans : ∀ {a b c : List Nat}, keyLe a b = true → keyLe b c = true → keyLe a c = true
  | [], _, _, _, _ => by simp [keyLe]
  | _ :: _, [], _, h, _ => by simp [keyLe] at h
  | _ :: _, _ :: _, [], _, h => by simp [keyLe] at h
  | a :: as, b :: bs, c :: cs, h, h' => by
    simp only [keyLe, Bool.or_eq_true, decide_eq_true_eq, Bool.and_eq_true, beq_iff_eq] at *
    rcases h with h | ⟨h, hi⟩ <;> rcases h' with h' | ⟨h', hi'⟩
    · exact .inl (by omega)
    · exact .inl (by omega)
    · exact .inl (by omega)
    · exact .inr ⟨h.trans h', keyLe_trans hi hi'⟩

/-- Only equal keys come before each other. -/
theorem keyLe_antisymm : ∀ {a b : List Nat}, keyLe a b = true → keyLe b a = true → a = b
  | [], [], _, _ => rfl
  | [], _ :: _, _, h => by simp [keyLe] at h
  | _ :: _, [], h, _ => by simp [keyLe] at h
  | a :: as, b :: bs, h, h' => by
    simp only [keyLe, Bool.or_eq_true, decide_eq_true_eq, Bool.and_eq_true, beq_iff_eq] at h h'
    rcases h with h | ⟨h, hi⟩ <;> rcases h' with h' | ⟨h', hi'⟩
    · omega
    · omega
    · omega
    · rw [h, keyLe_antisymm hi hi']

end Segment

namespace SourceMap

/-! ## Decoding -/

/-- Finds a segment's source and name in the tables of its map. -/
def resolve (sources names : List String) (s : Segment) : Except MapError Mapping :=
  match s.origin with
  | none => .ok ⟨s.generated, none⟩
  | some o =>
    match sources[o.source.toNat]? with
    | none => .error (.sourceOutOfRange o.source)
    | some source =>
      let position : Position := ⟨o.line + 1, o.column⟩
      match o.name with
      | none => .ok ⟨s.generated, some ⟨source, position, none⟩⟩
      | some i =>
        match names[i.toNat]? with
        | none => .error (.nameOutOfRange i)
        | some name => .ok ⟨s.generated, some ⟨source, position, some name⟩⟩

/-- Resolves every segment in order; the first that cannot be resolved decides. -/
def resolveAll (sources names : List String) :
    List Segment → Except MapError (List (Segment × Mapping))
  | [] => .ok []
  | s :: segments => do
    let mapping ← resolve sources names s
    let rest ← resolveAll sources names segments
    return (s, mapping) :: rest

/-- A text without the slashes at its end. -/
def trimSlashes (text : String) : String :=
  String.ofList (text.toList.reverse.dropWhile (· == '/')).reverse

/-- The source names behind the root, which is ignored when it is empty. -/
def rooted (root : Option String) (sources : List String) : List String :=
  match root with
  | none => sources
  | some root =>
    if root = "" then sources else sources.map fun s => trimSlashes root ++ "/" ++ s

/-- Sources with their texts; a missing entry of the table of texts is no text. -/
def sourceFiles (sources : List String) (contents : List (Option String)) : List SourceFile :=
  sources.mapIdx fun i s => ⟨s, (contents[i]?).join⟩

/-- Decodes a document. -/
def ofDocument (d : MapDocument) : Except MapError SourceMap :=
  match MappingText.decode d.mappings with
  | .error (offset, fault) => .error (.invalidMappings offset fault)
  | .ok segments => do
    let sources := rooted d.sourceRoot d.sources
    let resolved ← resolveAll sources d.names segments
    let ordered := resolved.mergeSort fun a b => Segment.keyLe a.1.sortKey b.1.sortKey
    return {
      file := d.file
      sources := sourceFiles sources (d.sourcesContent.getD [])
      mappings := ordered.map (·.2) }

/-- Decodes a document given as JSON. -/
def ofJson (v : Json) : Except MapError SourceMap := do ofDocument (← MapDocument.ofJson v)

/-- Decodes a document given as text. -/
def ofText (text : String) : Except MapError SourceMap := do ofDocument (← MapDocument.ofText text)

/-! ## Looking up -/

/-- The embedded text of a source. -/
def content? (m : SourceMap) (source : String) : Option String :=
  SourceFile.content? m.sources source

/-- The mapping that decides about a generated position: the first of those at the greatest position
that is not after it. -/
def deciding? (m : SourceMap) (p : Position) : Option Mapping := do
  let reached := m.mappings.takeWhile (·.generated ≤ p)
  let last ← reached.getLast?
  -- A mapping on an earlier line says nothing about this one
  if last.generated.line = p.line then
    reached.find? (·.generated = last.generated)
  else none

/-- Where a generated position comes from. -/
def trace (m : SourceMap) (p : Position) : Option Origin := (m.deciding? p).bind (·.origin)

end SourceMap

end MapChain
