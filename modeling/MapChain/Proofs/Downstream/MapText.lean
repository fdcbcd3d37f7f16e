import MapChain.Proofs.Compose.Results
import MapChain.Proofs.SourceMap.DocumentText

/-!
# A map as an object and as a text

The downstream transformer may give a source map as an object or as the text of one. Both are sorted
and decoded alike, or refused with the same error, since an object and its text are the same
document (`MapDocument.ofText_compact`).

Main result: `DownstreamShape.classify_insert_map`.
-/

namespace MapChain

namespace DownstreamShape

/-- **A map means the same as an object and as its text.** For each result without a tree, an object
that is set as its map and the compact text of it set as its map both lead to the same source map,
with the same members that pass through, or are refused with the same error. -/
theorem classify_insert_map {result : Fields} (hast : (result.get? "ast").getD .null = .null)
    {members : Fields} (hnodup : members.names.Nodup) :
    (∃ map,
      classify (result.insert "map" (.object members)) =
        .ok (.structured map (untouched result)) ∧
      classify (result.insert "map" (.string (Json.object members).compact)) =
        .ok (.structured map (untouched result))) ∨
    ∃ e,
      classify (result.insert "map" (.object members)) = .error (.invalidMap e) ∧
      classify (result.insert "map" (.string (Json.object members).compact)) =
        .error (.invalidMap e) := by
  have hclassify (v : Json) :
      classify (result.insert "map" v) = ofMap (untouched result) (some v) := by
    have hget : (result.insert "map" v).get? "ast" = result.get? "ast" := by
      rw [Fields.get?_insert, if_neg (by decide)]
    rw [classify_of_no_tree (by rwa [hget]), untouched, Fields.erase_insert, Fields.get?_insert,
      if_pos rfl, untouched]
  have htext : SourceMap.ofText (Json.object members).compact =
      SourceMap.ofJson (.object members) := by
    rw [SourceMap.ofText, SourceMap.ofJson, MapDocument.ofText_compact hnodup]
  rw [hclassify, hclassify, ofMap, ofMap, htext]
  cases SourceMap.ofJson (.object members) with
  | ok map => exact .inl ⟨map, rfl, rfl⟩
  | error e => exact .inr ⟨e, rfl, rfl⟩

/-- A map with a member that is not known, and in it a number that is no integer. -/
def extendedMembers : Fields :=
  [("extension", .array [.object [("n", .number (.real (.zero true)))]]),
    ("mappings", .string "AAAA"), ("sources", .array [.string "mid.js"]), ("version", .ofUInt32 3)]

theorem classify_insert_extendedMembers :
    let result : Fields := [("ast", .null), ("code", .string "x")]
    ∃ map,
      classify (result.insert "map" (.object extendedMembers)) =
        .ok (.structured map (untouched result)) ∧
      classify (result.insert "map" (.string (Json.object extendedMembers).compact)) =
        .ok (.structured map (untouched result)) := by
  intro result
  have hok : (classify (result.insert "map" (.object extendedMembers))).isOk := by decide +kernel
  have hast : (result.get? "ast").getD .null = .null := rfl
  have hnodup : (Fields.names extendedMembers).Nodup := by decide
  obtain haccepted | ⟨e, he, -⟩ := classify_insert_map hast hnodup
  · exact haccepted
  · rw [he] at hok
    cases hok

end DownstreamShape

end MapChain
