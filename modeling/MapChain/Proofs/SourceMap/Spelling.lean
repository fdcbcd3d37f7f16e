import MapChain.Proofs.Json.Shape
import MapChain.Proofs.Json.Sorted
import MapChain.SourceMap.Lookup
import MapChain.SourceMap.Tuple

/-!
# How tuples and documents are spelled

Which JSON values are mapping tuples and which are source map documents, said of their elements and
members and not by the readers. A tuple is read from the values that spell it and from no others,
and so is a document given as an object. What is written spells what was written.
-/

namespace MapChain

/-! ## Tuples -/

namespace MappingTuple

/-- A value spells a tuple: an array of two, four or five elements. The first two are the generated
position and the next two the origin, which is none if either is null. The last one is the name, or
null. -/
inductive Spells : Json → MappingTuple → Prop where
  | generated (p : Position) :
      Spells (.array [.ofUInt32 p.line, .ofUInt32 p.column]) ⟨p, none, none⟩
  | traced (p : Position) (line column : Option UInt32) :
      Spells (.array [.ofUInt32 p.line, .ofUInt32 p.column,
        Json.Shape.writeNullable .ofUInt32 line, Json.Shape.writeNullable .ofUInt32 column])
        ⟨p, originOf line column, none⟩
  | named (p : Position) (line column : Option UInt32) (name : Option String) :
      Spells (.array [.ofUInt32 p.line, .ofUInt32 p.column,
        Json.Shape.writeNullable .ofUInt32 line, Json.Shape.writeNullable .ofUInt32 column,
        Json.Shape.writeNullable .string name])
        ⟨p, originOf line column, name⟩

theorem reads_coordinate :
    Json.Shape.Reads (Json.Shape.nullable Json.Shape.uint32)
      (Json.Shape.writeNullable .ofUInt32) :=
  Json.Shape.reads_uint32.nullable nofun

theorem reads_name :
    Json.Shape.Reads (Json.Shape.nullable Json.Shape.string) (Json.Shape.writeNullable .string) :=
  Json.Shape.reads_string.nullable nofun

theorem ofJson_eq_ok_iff {v : Json} {t : MappingTuple} : ofJson v = .ok t ↔ Spells v t := by
  constructor
  · intro h
    cases v with
    | array items =>
      -- No tuple has more than five elements, so the sixth one ends the split
      rcases items with _ | ⟨a, _ | ⟨b, _ | ⟨c, _ | ⟨d, _ | ⟨e, _ | ⟨f, items⟩⟩⟩⟩⟩⟩
      all_goals
        simp only [ofJson, ofItems, bind_eq_ok_iff, pure_eq_ok_iff, Json.Shape.reads_uint32 _ _,
          reads_coordinate _ _, reads_name _ _, reduceCtorEq, and_false, exists_false] at h
      -- Two, four and five elements are left
      · obtain ⟨line, rfl, column, rfl, rfl⟩ := h
        exact .generated ⟨line, column⟩
      · obtain ⟨line, rfl, column, rfl, sourceLine, rfl, sourceColumn, rfl, rfl⟩ := h
        exact .traced ⟨line, column⟩ sourceLine sourceColumn
      · obtain ⟨line, rfl, column, rfl, sourceLine, rfl, sourceColumn, rfl, name, rfl, rfl⟩ := h
        exact .named ⟨line, column⟩ sourceLine sourceColumn name
    | _ => cases h
  · rintro (p | ⟨p, line, column⟩ | ⟨p, line, column, name⟩)
    all_goals
      simp only [ofJson, ofItems, Json.Shape.reads_uint32.read_write, reads_coordinate.read_write,
        reads_name.read_write, ok_bind]
      rfl

/-- A tuple is written as a value that spells it, less a name that has no origin. -/
theorem spells_toJson (t : MappingTuple) :
    Spells t.toJson { t with name := t.origin.bind fun _ => t.name } := by
  obtain ⟨p, origin, name⟩ := t
  cases origin with
  | none => exact .generated p
  | some o =>
    cases name with
    | none => exact .traced p o.line o.column
    | some name => exact .named p o.line o.column name

theorem sorted_streamToJson (ts : List MappingTuple) :
    (streamToJson ts).sorted = streamToJson ts := by
  have htuple (t : MappingTuple) : t.toJson.sorted = t.toJson := by
    obtain ⟨p, _ | o, name⟩ := t
    · rfl
    · cases name <;> rfl
  exact Json.sorted_array_map htuple ts

end MappingTuple

/-! ## Documents -/

namespace MapDocument

/-- The members of an object spell a document. The version and the mappings must be there; the file,
the root and the texts may be left out, which is the same as null; the other tables may be left out
when they are empty. No other member matters. -/
structure SpelledBy (members : Fields) (d : MapDocument) : Prop where
  version : members.get? "version" = some (.ofUInt32 d.version)
  file : (members.get? "file").getD .null = Json.Shape.writeNullable .string d.file
  sourceRoot :
    (members.get? "sourceRoot").getD .null = Json.Shape.writeNullable .string d.sourceRoot
  sources : (members.get? "sources").getD (.array []) = .array (d.sources.map .string)
  sourcesContent : (members.get? "sourcesContent").getD .null =
    Json.Shape.writeNullable
      (fun contents => .array (contents.map (Json.Shape.writeNullable .string))) d.sourcesContent
  names : (members.get? "names").getD (.array []) = .array (d.names.map .string)
  mappings : members.get? "mappings" = some (.string d.mappings)

theorem ofFields_eq_ok_iff {members : Fields} {d : MapDocument} :
    ofFields members = .ok d ↔ d.SpelledBy members := by
  have hcontents := MappingTuple.reads_name.list
  simp only [ofFields, bind_eq_ok_iff, pure_eq_ok_iff, Json.Shape.reads_uint32.required,
    Json.Shape.reads_string.required, Json.Shape.reads_string.optional nofun,
    Json.Shape.reads_string.list.defaulted, hcontents.optional nofun]
  constructor
  · rintro ⟨version, hversion, file, hfile, sourceRoot, hroot, sources, hsources, contents,
      hcontents, names, hnames, mappings, hmappings, rfl⟩
    exact ⟨hversion, hfile, hroot, hsources, hcontents, hnames, hmappings⟩
  · intro h
    exact ⟨_, h.version, _, h.file, _, h.sourceRoot, _, h.sources, _, h.sourcesContent, _, h.names,
      _, h.mappings, rfl⟩

theorem validated_eq_ok_iff {read : Json.Shaped MapDocument} {d : MapDocument} :
    validated read = .ok d ↔ read = .ok d ∧ d.version = supportedVersion := by
  cases read with
  | error e => simp [validated]
  | ok d' =>
    simp only [validated, ite_eq_iff, Except.ok.injEq, reduceCtorEq, and_false, or_false]
    constructor
    · rintro ⟨hversion, rfl⟩
      exact ⟨rfl, hversion⟩
    · rintro ⟨rfl, hversion⟩
      exact ⟨hversion, rfl⟩

/-- A document is read from an object when the members spell it and its version is understood. -/
theorem ofJson_object_eq_ok_iff {members : Fields} {d : MapDocument} :
    ofJson (.object members) = .ok d ↔ d.SpelledBy members ∧ d.version = supportedVersion := by
  rw [ofJson, validated_eq_ok_iff, ← ofFields_eq_ok_iff]
  rfl

theorem get?_optionalMember (name : String) (o : Option Json) (other : String) :
    Fields.get? (optionalMember name o) other = if other = name then o else none := by
  cases o with
  | none => simp [optionalMember]
  | some v => rw [optionalMember, Fields.get?_cons, Fields.get?_nil]

theorem names_optionalMember_sublist (name : String) (o : Option Json) :
    (Fields.names (optionalMember name o)).Sublist [name] := by
  cases o with
  | none => exact List.nil_sublist _
  | some v => exact List.Sublist.refl _

theorem exists_toJson_eq (d : MapDocument) :
    ∃ members : Fields, d.toJson = .object members ∧ members.names.Nodup ∧ d.SpelledBy members := by
  refine ⟨_, rfl, ?_, ?_⟩
  · -- The names are some of those a document can have, in their order
    have hnodup : memberNames.Nodup := by decide
    refine List.Nodup.sublist ?_ hnodup
    simp only [Fields.names, List.map_append]
    exact (((((List.Sublist.refl ["version"]).append (names_optionalMember_sublist _ _)).append
      (names_optionalMember_sublist _ _)).append (.refl ["sources"])).append
      (names_optionalMember_sublist _ _)).append (.refl ["names", "mappings"])
  · have hcontent : Json.ofString? = Json.Shape.writeNullable .string := by
      funext o
      cases o <;> rfl
    constructor
    all_goals
      simp [get?_optionalMember, Fields.get?_cons, Fields.get?_append, Json.Shape.getD_map_null,
        hcontent]

/-- Sorting the members that spell a document changes none of them. -/
theorem SpelledBy.sorted {members : Fields} {d : MapDocument} (h : d.SpelledBy members)
    (hnodup : members.names.Nodup) : d.SpelledBy (Fields.ofList (Json.sortedMembers members)) := by
  have hget (name : String) {v : Json} (hv : v.sorted = v) (h : members.get? name = some v) :
      (Fields.ofList (Json.sortedMembers members)).get? name = some v := by
    rw [Json.get?_ofList_sortedMembers hnodup, h, Option.map_some, hv]
  have hgetD (name : String) {default v : Json} (hdefault : default.sorted = default)
      (hv : v.sorted = v) (h : (members.get? name).getD default = v) :
      ((Fields.ofList (Json.sortedMembers members)).get? name).getD default = v := by
    rw [Json.get?_ofList_sortedMembers hnodup, ← hdefault, Option.getD_map, h, hv]
  have hstring (text : String) : (Json.string text).sorted = .string text := rfl
  have hname := Json.Shape.sorted_writeNullable hstring
  have hnames := Json.sorted_array_map hstring
  have hcontents := Json.Shape.sorted_writeNullable (Json.sorted_array_map hname)
  exact {
    version := hget _ rfl h.version
    file := hgetD _ rfl (hname _) h.file
    sourceRoot := hgetD _ rfl (hname _) h.sourceRoot
    sources := hgetD _ rfl (hnames _) h.sources
    sourcesContent := hgetD _ rfl (hcontents _) h.sourcesContent
    names := hgetD _ rfl (hnames _) h.names
    mappings := hget _ rfl h.mappings }

/-- A document is written as an object whose members, once they are sorted, spell it. -/
theorem spelledBy_toJson (d : MapDocument) :
    ∃ members, d.toJson.sorted = .object members ∧ d.SpelledBy members := by
  obtain ⟨members, hmembers, hnodup, hspelled⟩ := d.exists_toJson_eq
  exact ⟨_, congrArg Json.sorted hmembers, hspelled.sorted hnodup⟩

end MapDocument

end MapChain
