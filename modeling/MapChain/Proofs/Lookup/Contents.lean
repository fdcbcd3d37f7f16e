import MapChain.Proofs.Lookup.Tables

/-!
# Embedded texts of a document and of its map

A document finds the text of a source in its own tables, and the map it is decoded to finds it in
tables of its own, where the sources are behind the root and each has an entry for its text. Both
find the same: no two sources become one behind a root, so the first entry of a source stays the
first one, and an entry that is cut off or filled in is never asked for.

Main result: `SourceMap.content?_ofDocument`.
-/

namespace MapChain

namespace SourceMap

/-- Sources that differ still differ behind a root. -/
theorem behind_injective (root : Option String) : Function.Injective (behind root) := by
  intro a b hab
  cases root with
  | none => exact hab
  | some root =>
    by_cases hroot : root = ""
    · simpa only [behind, if_pos hroot] using hab
    · simpa only [behind, if_neg hroot, String.append_right_inj] using hab

/-- Behind a root the first entry of a source stands where it stood. -/
theorem findIdx?_rooted (root : Option String) (sources : List String) (source : String) :
    (rooted root sources).findIdx? (· == behind root source) =
      sources.findIdx? (· == source) := by
  have hsame : ((· == behind root source) ∘ behind root) = (· == source) := by
    funext s
    rw [Function.comp_apply, Bool.eq_iff_iff, beq_iff_eq, beq_iff_eq]
    exact (behind_injective root).eq_iff
  rw [rooted_eq_map, List.findIdx?_map, hsame]

/-- The text of a source in a document is at the index of the source, where there is one. -/
theorem sourceContent?_eq (d : MapDocument) (source : String) :
    d.sourceContent? source =
      (d.sources.findIdx? (· == source)).bind fun i => ((d.sourcesContent.getD [])[i]?).join := by
  rw [MapDocument.sourceContent?]
  cases d.sources.findIdx? (· == source) with
  | none => rfl
  | some i =>
    cases d.sourcesContent with
    | none => rfl
    | some contents => cases hi : contents[i]? <;> simp [hi]

/-- **A map has the texts of its document**: for each source, listed or not, there is one name
behind the root, and the map finds by this name what the document finds by the source. By a name
that no listed source has behind the root it finds nothing. -/
theorem content?_ofDocument {d : MapDocument} {m : SourceMap} (h : ofDocument d = .ok m) :
    (∀ source, ∃! full, BehindRoot d.sourceRoot source full) ∧
      (∀ source full, BehindRoot d.sourceRoot source full →
        m.content? full = d.sourceContent? source) ∧
      ∀ full, (∀ source ∈ d.sources, ¬ BehindRoot d.sourceRoot source full) →
        m.content? full = none := by
  obtain ⟨segments, -, -, rfl⟩ := ofDocument_eq_ok_iff.mp h
  simp only [behindRoot_iff, content?, content?_sourceFiles]
  refine ⟨fun source => ⟨behind d.sourceRoot source, rfl, fun _ hfull => hfull⟩, ?_, ?_⟩
  · rintro source _ rfl
    rw [findIdx?_rooted, sourceContent?_eq]
  · intro full hnone
    have hmissing : (rooted d.sourceRoot d.sources).findIdx? (· == full) = none := by
      rw [rooted_eq_map, List.findIdx?_eq_none_iff]
      intro s hs
      obtain ⟨source, hsource, rfl⟩ := List.mem_map.mp hs
      simpa using Ne.symm (hnone source hsource)
    rw [hmissing, Option.bind_none]

/-- A document with a source that is listed twice, one that looks like it behind the root, and fewer
texts than sources. -/
def repeatedDocument : MapDocument where
  version := 3
  file := none
  sourceRoot := some "lib//"
  sources := ["a", "lib/a", "a", "b"]
  sourcesContent := some [some "first", none, some "second"]
  names := []
  mappings := ""

/-- The first text of the source counts, and the source itself is no name behind the root. -/
theorem content?_repeatedDocument : ∃ m, ofDocument repeatedDocument = .ok m ∧
    m.content? "lib/a" = some "first" ∧ m.content? "a" = none := by
  obtain ⟨m, hm⟩ : ∃ m, ofDocument repeatedDocument = .ok m :=
    ⟨_, ofDocument_eq_ok_iff.mpr ⟨[], by decide +kernel, nofun, rfl⟩⟩
  obtain ⟨-, htexts, hnone⟩ := content?_ofDocument hm
  have hbehind : BehindRoot repeatedDocument.sourceRoot "a" "lib/a" :=
    @BehindRoot.some "lib" "//" "a" (by decide) (by simp) (by simp)
  refine ⟨m, hm, htexts "a" "lib/a" hbehind, hnone "a" ?_⟩
  simp only [behindRoot_iff]
  decide +kernel

end SourceMap

end MapChain
