import MapChain.Compose.Chain
import MapChain.Proofs.Lookup.Decoded
import MapChain.Proofs.Relocate.Points
import MapChain.Proofs.SourceMap.Spelling

/-!
# What composing does to a result

A result of the downstream stage is an object of which two members are looked at. Composing sets one
of them, removes the other and keeps the rest. Which one is set, and to what kind of value, depends
only on the two members of the result, and so does whether the result is refused.

## Layers

- **Refusals**: `Refused` describes the maps that no composition starts from, and
  `classify_eq_error_iff` finds a refusal in the members of a result.
- **Members**: `get?_insert_untouched` looks up a member of a composed result.
- **Results**: `IsComposed` relates a result and what it becomes, and `compose_characterized` is the
  main theorem.
-/

namespace MapChain

/-! ## Refusals -/

/-- A document can be looked up in: it has the version that is understood, its mapping text is
well-formed and its tables have what the mappings refer to. -/
def MapDocument.Decodes (d : MapDocument) : Prop :=
  d.version = supportedVersion ∧ ∃ segments, MappingText.decode d.mappings = .ok segments ∧
    ∀ s ∈ segments, s.InTables (SourceMap.rooted d.sourceRoot d.sources) d.names

namespace SourceMap

theorem exists_ofDocument_iff {d : MapDocument}
    (hversion : d.version = MapDocument.supportedVersion) :
    (∃ m, ofDocument d = .ok m) ↔ d.Decodes := by
  simp only [ofDocument_eq_ok_iff, MapDocument.Decodes, hversion, true_and]
  constructor
  · rintro ⟨_, segments, hdecode, htables, -⟩
    exact ⟨segments, hdecode, htables⟩
  · rintro ⟨segments, hdecode, htables⟩
    exact ⟨_, segments, hdecode, htables, rfl⟩

theorem exists_ofJson_object_iff {members : Fields} :
    (∃ m, ofJson (.object members) = .ok m) ↔
      ∃ d : MapDocument, d.SpelledBy members ∧ d.Decodes := by
  simp only [ofJson, bind_eq_ok_iff, MapDocument.ofJson_object_eq_ok_iff]
  constructor
  · rintro ⟨m, d, ⟨hspelled, hversion⟩, hm⟩
    exact ⟨d, hspelled, (exists_ofDocument_iff hversion).mp ⟨m, hm⟩⟩
  · rintro ⟨d, hspelled, hdecodes⟩
    obtain ⟨m, hm⟩ := (exists_ofDocument_iff hdecodes.1).mpr hdecodes
    exact ⟨m, d, ⟨hspelled, hdecodes.1⟩, hm⟩

theorem exists_ofText_iff {text : String} :
    (∃ m, ofText text = .ok m) ↔ ∃ d, MapDocument.ofText text = .ok d ∧ d.Decodes := by
  simp only [ofText, bind_eq_ok_iff]
  constructor
  · rintro ⟨m, d, hd, hm⟩
    have hversion := (MapDocument.validated_eq_ok_iff.mp hd).2
    exact ⟨d, hd, (exists_ofDocument_iff hversion).mp ⟨m, hm⟩⟩
  · rintro ⟨d, hd, hdecodes⟩
    obtain ⟨m, hm⟩ := (exists_ofDocument_iff hdecodes.1).mpr hdecodes
    exact ⟨m, d, hd, hm⟩

end SourceMap

namespace DownstreamShape

/-- A map that no composition starts from: a boolean, a number, an array with an item that is no
tuple, or an object or a text that is no document one can look up in. -/
def Refused : Json → Prop
  | .null => False
  | .bool _ | .number _ => True
  | .array items => ∃ v ∈ items, ∀ t, ¬ MappingTuple.Spells v t
  | .object members => ¬ ∃ d : MapDocument, d.SpelledBy members ∧ d.Decodes
  | .string text => ¬ ∃ d, MapDocument.ofText text = .ok d ∧ d.Decodes

theorem exists_streamOfJson_iff {items : List Json} :
    (∃ ts, MappingTuple.streamOfJson (.array items) = .ok ts) ↔ ¬ Refused (.array items) := by
  simp only [MappingTuple.streamOfJson, Json.Shape.list, Json.Shape.exists_each_iff,
    MappingTuple.ofJson_eq_ok_iff, Refused, not_exists, not_and, not_forall, not_not]

/-- A result without a tree is sorted when its map is not refused. -/
theorem exists_ofMap_iff {fields : Fields} {map : Option Json} :
    (∃ shape, ofMap fields map = .ok shape) ↔ ∀ v, map = some v → ¬ Refused v := by
  rcases map with _ | v
  · simp [ofMap]
  simp only [Option.some.injEq, forall_eq']
  cases v with
  | null => simp [ofMap, Refused]
  | bool b => simp [ofMap, Refused]
  | number n => simp [ofMap, Refused]
  | array items =>
    rw [← exists_streamOfJson_iff, ofMap]
    cases MappingTuple.streamOfJson (.array items) <;> simp
  | string text =>
    rw [Refused, not_not, ← SourceMap.exists_ofText_iff, ofMap]
    cases SourceMap.ofText text <;> simp
  | object members =>
    rw [Refused, not_not, ← SourceMap.exists_ofJson_object_iff, ofMap]
    cases SourceMap.ofJson (.object members) <;> simp

/-- The map of a result is a stream of tuples, or there is none. -/
def IsStream (map : Option Json) : Prop :=
  map = none ∨ map = some .null ∨ ∃ items, map = some (.array items)

/-- The map of a result is a document. -/
def IsDocument (map : Option Json) : Prop :=
  (∃ members, map = some (.object members)) ∨ ∃ text, map = some (.string text)

theorem IsStream.not_isDocument {map : Option Json} (h : IsStream map) : ¬ IsDocument map := by
  rintro (⟨members, rfl⟩ | ⟨text, rfl⟩)
  · rcases h with h | h | ⟨items, h⟩ <;> cases h
  · rcases h with h | h | ⟨items, h⟩ <;> cases h

/-- A result without a tree is sorted by the kind of its map. -/
theorem ofMap_cases {fields : Fields} {map : Option Json} {shape : DownstreamShape}
    (h : ofMap fields map = .ok shape) :
    (IsStream map ∧ ∃ ts, shape = .tuples ts fields) ∨
      (IsDocument map ∧ ∃ m, shape = .structured m fields) := by
  rcases map with _ | v
  · cases h
    exact .inl ⟨.inl rfl, _, rfl⟩
  -- A map of another kind is refused at once, and one of these when it cannot be read
  cases v with
  | null =>
    cases h
    exact .inl ⟨.inr (.inl rfl), _, rfl⟩
  | bool b => cases h
  | number n => cases h
  | array items =>
    rw [ofMap] at h
    split at h
    · cases h
      exact .inl ⟨.inr (.inr ⟨items, rfl⟩), _, rfl⟩
    · cases h
  | string text =>
    rw [ofMap] at h
    split at h
    · cases h
      exact .inr ⟨.inr ⟨text, rfl⟩, _, rfl⟩
    · cases h
  | object members =>
    rw [ofMap] at h
    split at h
    · cases h
      exact .inr ⟨.inl ⟨members, rfl⟩, _, rfl⟩
    · cases h

/-- The members of a result that composing does not look at. -/
def untouched (result : Fields) : Fields := (result.erase "map").erase "ast"

theorem exists_tree {result : Fields} (h : (result.get? "ast").getD .null ≠ .null) :
    ∃ ast, result.get? "ast" = some ast ∧ ast ≠ .null := by
  cases hast : result.get? "ast" with
  | none => simp [hast] at h
  | some ast =>
    rw [hast, Option.getD_some] at h
    exact ⟨ast, rfl, h⟩

theorem classify_of_tree {result : Fields} {ast : Json} (h : result.get? "ast" = some ast)
    (hast : ast ≠ .null) : classify result = .ok (.tree ast (untouched result)) := by
  rw [classify, h]
  cases ast with
  | null => exact absurd rfl hast
  | _ => rfl

theorem classify_of_no_tree {result : Fields} (h : (result.get? "ast").getD .null = .null) :
    classify result = ofMap (untouched result) (result.get? "map") := by
  rw [classify]
  cases hast : result.get? "ast" with
  | none => rfl
  | some ast =>
    rw [hast, Option.getD_some] at h
    rw [h]
    rfl

/-- A result is refused for its map, and only when there is no tree. -/
theorem classify_eq_error_iff {result : Fields} :
    (∃ e, classify result = .error e) ↔
      (result.get? "ast").getD .null = .null ∧ ∃ v, result.get? "map" = some v ∧ Refused v := by
  by_cases hast : (result.get? "ast").getD .null = .null
  · rw [classify_of_no_tree hast, exists_eq_error_iff, exists_ofMap_iff]
    simp [hast]
  · obtain ⟨ast, hget, hne⟩ := exists_tree hast
    simp [classify_of_tree hget hne, hget, hne]

/-! ## Members -/

theorem get?_insert_untouched (result : Fields) (key : String) (v : Json) (name : String) :
    ((untouched result).insert key v).get? name =
      if name = key then some v
      else if name = "map" ∨ name = "ast" then none else result.get? name := by
  rw [untouched, Fields.get?_insert, Fields.get?_erase, Fields.get?_erase]
  by_cases hmap : name = "map" <;> by_cases hast : name = "ast" <;> simp [hmap, hast]

theorem sorted_insert_untouched {result : Fields} (h : (Json.object result).Sorted) (key : String)
    {v : Json} (hv : v.Sorted) : (Json.object ((untouched result).insert key v)).Sorted :=
  ((h.erase "map").erase "ast").insert key hv

end DownstreamShape

/-! ## Results -/

/-- An array of values that spell tuples. -/
def IsTupleArray (v : Json) : Prop :=
  ∃ items, v = .array items ∧ ∀ item ∈ items, ∃ t, MappingTuple.Spells item t

/-- An object that spells a document of the version that is understood. -/
def IsDocumentObject (v : Json) : Prop :=
  ∃ members, ∃ d : MapDocument, v = .object members ∧ d.SpelledBy members ∧
    d.version = MapDocument.supportedVersion

open DownstreamShape in
/-- What a result becomes when its positions are composed. -/
structure IsComposed (stage1 : SourceMap) (result value : Fields) : Prop where
  sorted : (Json.object value).Sorted
  /-- No other member is lost, changed or invented. -/
  kept : ∀ name, name ≠ "map" → name ≠ "ast" → value.get? name = result.get? name
  /-- A tree takes the place of any map, and only its points move. -/
  tree : ∀ ast, result.get? "ast" = some ast → ast ≠ .null → value.get? "map" = none ∧
    ∃ moved, value.get? "ast" = some moved ∧ Relocate.IsRelocation stage1 ast moved
  noTree : (result.get? "ast").getD .null = .null → value.get? "ast" = none
  stream : (result.get? "ast").getD .null = .null → IsStream (result.get? "map") →
    ∃ map, value.get? "map" = some map ∧ IsTupleArray map
  document : (result.get? "ast").getD .null = .null → IsDocument (result.get? "map") →
    ∃ map, value.get? "map" = some map ∧ IsDocumentObject map

namespace IsComposed

variable {stage1 : SourceMap} {result : Fields}

open DownstreamShape

theorem of_tree (hsorted : (Json.object result).Sorted) {ast : Json}
    (hget : result.get? "ast" = some ast) (hast : ast ≠ .null) :
    IsComposed stage1 result ((untouched result).insert "ast" (relocate stage1 ast).1) := by
  have hrelocation : Relocate.IsRelocation stage1 ast (relocate stage1 ast).1 :=
    Relocate.isRelocation_relocate ((Json.sorted_object_iff.mp hsorted).2 "ast" ast hget) stage1
  -- What is said of results without a tree does not concern this one
  have hnull : (result.get? "ast").getD .null ≠ .null := by rwa [hget]
  refine {
    sorted := sorted_insert_untouched hsorted "ast" hrelocation.sorted
    kept := fun name hmap hast => by simp [get?_insert_untouched, hmap, hast]
    tree := ?_
    noTree := fun h => absurd h hnull
    stream := fun h => absurd h hnull
    document := fun h => absurd h hnull }
  intro other hother _
  obtain rfl : ast = other := Option.some.inj (hget.symm.trans hother)
  exact ⟨by simp [get?_insert_untouched], _, by simp [get?_insert_untouched], hrelocation⟩

theorem of_map (hsorted : (Json.object result).Sorted)
    (hast : (result.get? "ast").getD .null = .null) {map : Json} (hmap : map.Sorted)
    (hstream : IsStream (result.get? "map") → IsTupleArray map)
    (hdocument : IsDocument (result.get? "map") → IsDocumentObject map) :
    IsComposed stage1 result ((untouched result).insert "map" map) := by
  have hvalue : ((untouched result).insert "map" map).get? "map" = some map := by
    simp [get?_insert_untouched]
  refine {
    sorted := sorted_insert_untouched hsorted "map" hmap
    kept := fun name hmap hast => by simp [get?_insert_untouched, hmap, hast]
    tree := ?_
    noTree := fun _ => by simp [get?_insert_untouched]
    stream := fun _ h => ⟨map, hvalue, hstream h⟩
    document := fun _ h => ⟨map, hvalue, hdocument h⟩ }
  intro ast hget hne
  rw [hget] at hast
  exact absurd hast hne

theorem of_tuples (hsorted : (Json.object result).Sorted)
    (hast : (result.get? "ast").getD .null = .null) (hstream : IsStream (result.get? "map"))
    (ts : List MappingTuple) :
    IsComposed stage1 result
      ((untouched result).insert "map" (MappingTuple.streamToJson ts).sorted) := by
  refine of_map hsorted hast (Json.sorted_sorted _) (fun _ => ?_)
    fun h => absurd h hstream.not_isDocument
  -- Tuples are written in order, so sorting the members of the value changes none of them
  rw [MappingTuple.sorted_streamToJson]
  refine ⟨_, rfl, fun item hitem => ?_⟩
  obtain ⟨t, -, rfl⟩ := List.mem_map.mp hitem
  exact ⟨_, t.spells_toJson⟩

theorem of_document (hsorted : (Json.object result).Sorted)
    (hast : (result.get? "ast").getD .null = .null) (hdocument : IsDocument (result.get? "map"))
    {d : MapDocument} (hversion : d.version = MapDocument.supportedVersion) :
    IsComposed stage1 result ((untouched result).insert "map" d.toJson.sorted) := by
  refine of_map hsorted hast (Json.sorted_sorted _)
    (fun h => absurd hdocument h.not_isDocument) fun _ => ?_
  obtain ⟨members, hmembers, hspelled⟩ := d.spelledBy_toJson
  exact ⟨members, d, hmembers, hspelled, hversion⟩

end IsComposed

/-- **What composing does to a result.** A result that is accepted keeps all its members but the
map and the tree. With a tree, it keeps the tree with its points moved and has no map; without one,
it has a stream of tuples in the place of a stream, or of no map, and a document of the supported
version in the place of a document. Results are refused for their maps only, and never with a
tree. -/
theorem compose_characterized {result : Fields} (hsorted : (Json.object result).Sorted)
    (stage1 : SourceMap) (fileName text : String) :
    (∀ shape, DownstreamShape.classify result = .ok shape → ∃ value,
      (compose stage1 shape fileName text).toValue = .object value ∧
        IsComposed stage1 result value) ∧
      ((∃ e, DownstreamShape.classify result = .error e) ↔
        (result.get? "ast").getD .null = .null ∧
          ∃ v, result.get? "map" = some v ∧ DownstreamShape.Refused v) := by
  refine ⟨fun shape hshape => ?_, DownstreamShape.classify_eq_error_iff⟩
  by_cases hast : (result.get? "ast").getD .null = .null
  · rw [DownstreamShape.classify_of_no_tree hast] at hshape
    rcases DownstreamShape.ofMap_cases hshape with ⟨hstream, ts, rfl⟩ | ⟨hdocument, m, rfl⟩
    · exact ⟨_, rfl, .of_tuples hsorted hast hstream _⟩
    · exact ⟨_, rfl, .of_document hsorted hast hdocument rfl⟩
  · obtain ⟨ast, hget, hne⟩ := DownstreamShape.exists_tree hast
    rw [DownstreamShape.classify_of_tree hget hne] at hshape
    cases hshape
    exact ⟨_, rfl, .of_tree hsorted hget hne⟩

/-- A result with a tree, and with a map that is refused in a result without one. -/
def treeResult : Fields := [("ast", Relocate.nestedTree), ("code", .null), ("map", .bool true)]

theorem compose_treeResult :
    (Json.object treeResult).Sorted ∧ ∃ shape value,
      DownstreamShape.classify treeResult = .ok shape ∧
        (compose Relocate.shortMap shape "a.ts" "text").toValue = .object value ∧
        IsComposed Relocate.shortMap treeResult value ∧ Fields.names value = ["ast", "code"] := by
  have hsorted : (Json.object treeResult).Sorted := by
    have hsame : (Json.object treeResult).sorted = .object treeResult := by decide +kernel
    rw [← hsame]
    exact Json.sorted_sorted _
  have htree : treeResult.get? "ast" = some Relocate.nestedTree := rfl
  have hshape := DownstreamShape.classify_of_tree htree nofun
  obtain ⟨value, hvalue, hcomposed⟩ :=
    (compose_characterized hsorted Relocate.shortMap "a.ts" "text").1 _ hshape
  have hnames : Fields.names value = ["ast", "code"] := by
    rw [← Json.object.inj hvalue]
    rfl
  exact ⟨hsorted, _, value, hshape, hvalue, hcomposed, hnames⟩

end MapChain
