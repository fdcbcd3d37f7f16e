import MapChain.Proofs.Compose.Results
import MapChain.Proofs.Json.SameDocument

/-!
# A result as it is sent

A result is sent as a text that begins with its map or its tree and goes on with the other members,
in which neither of the two occurs. So no member of it comes twice, and the text is the same
document as the one object that the result amounts to, although a map that is sent has its members
in the order of their declaration and not sorted.

## Layers

- **Documents**: a source map document and the sorted one are the same document.
- **Members**: setting a member that is not there, and putting it first.

Main result: `TransformResult.toWire_sameDocument_toValue`.
-/

namespace MapChain

/-! ## Documents -/

namespace MapDocument

theorem sorted_of_mem_optionalMember {name : String} {o : Option Json}
    (h : ∀ v ∈ o, v.Sorted) : ∀ m ∈ optionalMember name o, m.2.Sorted := by
  cases o with
  | none => exact nofun
  | some v => exact List.forall_mem_singleton.mpr (h v rfl)

theorem sorted_strings (texts : List String) : (Json.array (texts.map .string)).Sorted :=
  Json.sorted_of_sorted_eq (Json.sorted_array_map (fun _ => rfl) texts)

/-- The names in a document that is written differ. -/
theorem distinctNames_toJson (d : MapDocument) : d.toJson.DistinctNames := by
  obtain ⟨members, hmembers, hnodup, -⟩ := d.exists_toJson_eq
  rw [hmembers]
  refine Json.distinctNames_object hnodup ?_
  -- The members are texts, a number and lists of texts, which hold no object
  obtain rfl := Json.object.inj hmembers
  have htext (o : Option String) : ∀ v ∈ o.map Json.string, v.Sorted := by
    intro v hv
    obtain ⟨s, -, rfl⟩ := Option.map_eq_some_iff.mp hv
    exact Json.sorted_of_steps_eq_nil rfl
  have hcontents : ∀ v ∈ d.sourcesContent.map fun cs => Json.array (cs.map .ofString?),
      v.Sorted := by
    intro v hv
    obtain ⟨cs, -, rfl⟩ := Option.map_eq_some_iff.mp hv
    exact Json.sorted_of_sorted_eq (Json.sorted_array_map (fun o => by cases o <;> rfl) cs)
  have hversion : (Json.ofUInt32 d.version).Sorted := Json.sorted_of_steps_eq_nil rfl
  have hmappings : (Json.string d.mappings).Sorted := Json.sorted_of_steps_eq_nil rfl
  simp only [List.forall_mem_append, List.forall_mem_cons]
  have hnil := List.forall_mem_nil fun m : String × Json => m.2.Sorted
  exact ⟨⟨⟨⟨⟨⟨hversion, hnil⟩, sorted_of_mem_optionalMember (htext _)⟩,
    sorted_of_mem_optionalMember (htext _)⟩, sorted_strings _, hnil⟩,
    sorted_of_mem_optionalMember hcontents⟩, sorted_strings _, hmappings, hnil⟩

end MapDocument

/-- Composed mappings and the same mappings with their members sorted are the same document. -/
theorem ComposedMap.sameDocument_sorted_toJson (map : ComposedMap) :
    Json.SameDocument map.toJson map.toJson.sorted := by
  cases map with
  | tuples ts =>
    rw [toJson, MappingTuple.sorted_streamToJson]
  | document d => exact d.distinctNames_toJson.sameDocument_sorted

namespace Json

/-- A member that is new comes first, or in its place: the document is the same. -/
theorem sameDocument_cons_insert {fields : Fields} (h : fields.Sorted) {name : String}
    (hfresh : fields.get? name = none) {v w : Json} (hvw : SameDocument v w) :
    SameDocument (.object ((name, v) :: fields)) (.object (fields.insert name w)) := by
  have hnodup : (Fields.names ((name, v) :: fields)).Nodup :=
    List.nodup_cons.mpr ⟨Fields.get?_eq_none_iff.mp hfresh, h.nodup⟩
  refine sameDocument_object hnodup (h.insert name w).nodup fun other => ?_
  rw [Fields.get?_cons, Fields.get?_insert]
  split
  next => exact .some hvw
  next =>
    cases fields.get? other with
    | none => exact .none
    | some u => exact .some (.refl u)

end Json

/-! ## Results -/

namespace TransformResult

/-- The results that are handed back for a result of the downstream transformer: it is passed
through as a whole, or accepted and composed with a map of the compiler. -/
inductive MadeFrom (result : Fields) : TransformResult → Prop where
  | passThrough : MadeFrom result (passThrough result)
  | composed {shape : DownstreamShape} (h : DownstreamShape.classify result = .ok shape)
    (stage1 : SourceMap) (fileName text : String) :
    MadeFrom result (compose stage1 shape fileName text)

/-- A result whose map or tree takes the place of both is sent as the document it amounts to. -/
theorem nodup_and_sameDocument {result : Fields} (hsorted : (Json.object result).Sorted)
    {key : String} (hkey : key = "map" ∨ key = "ast") {v w : Json} (h : Json.SameDocument v w) :
    (Fields.names ((key, v) :: DownstreamShape.untouched result)).Nodup ∧
      Json.SameDocument (.object ((key, v) :: DownstreamShape.untouched result))
        (.object ((DownstreamShape.untouched result).insert key w)) := by
  have hrest : (DownstreamShape.untouched result).Sorted :=
    (hsorted.members.erase "map").erase "ast"
  have hfresh : (DownstreamShape.untouched result).get? key = none := by
    rw [DownstreamShape.untouched, Fields.get?_erase, Fields.get?_erase]
    rcases hkey with rfl | rfl <;> simp
  exact ⟨List.nodup_cons.mpr ⟨Fields.get?_eq_none_iff.mp hfresh, hrest.nodup⟩,
    Json.sameDocument_cons_insert hrest hfresh h⟩

/-- **What is sent is what a result amounts to.** The text of a result is an object in which no
member comes twice, and it is the same document as the one object that the result amounts to. -/
theorem toWire_sameDocument_toValue {result : Fields} (hsorted : (Json.object result).Sorted)
    {r : TransformResult} (h : MadeFrom result r) :
    ∃ wire : Fields, r.toWire = .object wire ∧ wire.names.Nodup ∧
      Json.Tree.ofText? r.toWire.compact.toList = some r.toWire.toTree ∧
      Json.SameDocument r.toWire r.toValue := by
  suffices hwire : ∃ wire : Fields, r.toWire = .object wire ∧ wire.names.Nodup ∧
      Json.SameDocument r.toWire r.toValue by
    obtain ⟨wire, hobject, hnodup, hsame⟩ := hwire
    exact ⟨wire, hobject, hnodup, Json.ofText?_compact _, hsame⟩
  cases h with
  | passThrough => exact ⟨result, rfl, hsorted.members.nodup, .refl _⟩
  | @composed shape h stage1 fileName text =>
    by_cases hast : (result.get? "ast").getD .null = .null
    · rw [DownstreamShape.classify_of_no_tree hast] at h
      -- With either kind of map the other members are sent behind it
      obtain ⟨map, hmap⟩ : ∃ map : ComposedMap, compose stage1 shape fileName text =
          ⟨some map, none, DownstreamShape.untouched result⟩ := by
        rcases DownstreamShape.ofMap_cases h with ⟨-, ts, rfl⟩ | ⟨-, m, rfl⟩
        · exact ⟨_, rfl⟩
        · exact ⟨_, rfl⟩
      rw [hmap]
      obtain ⟨hnodup, hsame⟩ :=
        nodup_and_sameDocument hsorted (.inl rfl) map.sameDocument_sorted_toJson
      exact ⟨_, rfl, hnodup, hsame⟩
    · obtain ⟨ast, hget, hne⟩ := DownstreamShape.exists_tree hast
      rw [DownstreamShape.classify_of_tree hget hne] at h
      cases h
      obtain ⟨hnodup, hsame⟩ := nodup_and_sameDocument hsorted (.inr rfl)
        (Json.SameDocument.refl (relocate stage1 ast).1)
      exact ⟨_, rfl, hnodup, hsame⟩

/-- A result with a map that is sent in another order than it has here. -/
def documentResult : Fields :=
  [("code", .string "x"), ("map", .object [("mappings", .string "AAAA"), ("names", .array []),
    ("sources", .array [.string "mid.js"]), ("version", .ofUInt32 3)])]

theorem toWire_documentResult :
    (Json.object documentResult).Sorted ∧ ∃ shape,
      DownstreamShape.classify documentResult = .ok shape ∧
        let r := compose Relocate.shortMap shape "a.ts" "text"
        ∃ wire : Fields, r.toWire = .object wire ∧ wire.names.Nodup ∧
          Json.Tree.ofText? r.toWire.compact.toList = some r.toWire.toTree ∧
          Json.SameDocument r.toWire r.toValue := by
  have hsorted : (Json.object documentResult).Sorted :=
    Json.sorted_of_sorted_eq (by decide +kernel)
  have hok : (DownstreamShape.classify documentResult).isOk := by decide +kernel
  cases hshape : DownstreamShape.classify documentResult with
  | error e =>
    rw [hshape] at hok
    cases hok
  | ok shape =>
    exact ⟨hsorted, shape, rfl,
      toWire_sameDocument_toValue hsorted (.composed hshape Relocate.shortMap "a.ts" "text")⟩

end TransformResult

end MapChain
