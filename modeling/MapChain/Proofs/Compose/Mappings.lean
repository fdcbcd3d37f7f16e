import Mathlib.Data.List.Perm.Basic
import MapChain.Proofs.Compose.Document

/-!
# The mappings of a composed document

The composed document is decoded into its hops, one mapping for each, ordered by generated position
and at one position by origin and name. So what the composed map says about a position, and how many
mappings it has there, can be read off the hops alone.
-/

namespace MapChain

/-- The mapping that a hop becomes when everything is attributed to one file. -/
def Hop.mapping (fileName : String) (h : Hop) : Mapping :=
  ⟨h.generated, some ⟨fileName, h.origin, h.name⟩⟩

/-- What a mapping says without its source: its place, the position that it leads to and its
name. -/
def Mapping.entry (x : Mapping) : Position × Option Position × Option String :=
  (x.generated, x.origin.map (·.position), x.origin.bind (·.name))

/-- Where a mapping of the second stage leads through both, with the name that it has. -/
def follow? (stage1 : SourceMap) (x : Mapping) : Option (Position × Option String) :=
  x.origin.bind fun middle =>
    (stage1.trace middle.position).map fun o => (o.position, middle.name)

/-- The entry of a mapping that is led through both stages. -/
def entryThrough? (stage1 : SourceMap) (x : Mapping) :
    Option (Position × Option Position × Option String) :=
  (follow? stage1 x).map fun a => (x.generated, some a.1, a.2)

/-- What is listed like an image is the image of what is listed so. -/
theorem exists_perm_of_perm_map {α β : Type} {f : α → β} {l : List β} {l' : List α}
    (h : l.Perm (l'.map f)) : ∃ l'' : List α, l''.Perm l' ∧ l = l''.map f := by
  have himage : List.Forall₂ (fun b a => b = f a) (l'.map f) l' :=
    List.forall₂_map_left_iff.mpr (List.forall₂_same.mpr fun _ _ => rfl)
  obtain ⟨l'', hforall, hperm⟩ := List.perm_comp_forall₂ h himage
  refine ⟨l'', hperm, ?_⟩
  rw [← List.forall₂_eq_eq_eq, List.forall₂_map_right_iff]
  exact hforall

/-- **A composed document is decoded into its hops**, in the order of their generated positions and
then of their keys. -/
theorem ofDocument_composeDocument {d1 d2 : MapDocument} {stage1 stage2 : SourceMap}
    (h1 : SourceMap.ofDocument d1 = .ok stage1) (h2 : SourceMap.ofDocument d2 = .ok stage2)
    (hfit1 : d1.LinesFit) (hfit2 : d2.LinesFit) (fileName text : String) :
    ∃ m listed, SourceMap.ofDocument (composeDocument stage1 stage2 fileName text) = .ok m ∧
      m.mappings = listed.map (Hop.mapping fileName) ∧ listed.Perm (hops stage1 stage2) ∧
      Lookup.SortedBy Hop.generated (Hop.key (hopNames stage1 stage2)) listed := by
  have hlines : ∀ h ∈ hops stage1 stage2, h.generated.line ≠ 0 ∧ h.origin.line ≠ 0 :=
    fun h hh => line_ne_zero_of_mem_hops h1 h2 hfit1 hfit2 hh
  have hnamed : ∀ h ∈ hops stage1 stage2, ∀ n ∈ h.name, n ∈ hopNames stage1 stage2 :=
    fun h hh n hn => List.mem_filterMap.mpr ⟨h, hh, hn⟩
  have hlength := length_table_hopNames_le stage1 h2 hfit2
  obtain ⟨segments, -, hperm, hfit, hm⟩ :=
    MapBuilder.ofDocument_run none (composeCalls stage1 stage2 fileName text)
  rw [segments_composeCalls] at hperm
  -- The decoder sorts the segments, so they are still those of the hops, in some order
  obtain ⟨listed, hlisted, hordered⟩ := exists_perm_of_perm_map
    (f := Hop.segment (hopNames stage1 stage2)) ((List.mergeSort_perm _ _).trans hperm)
  have hmem : ∀ h ∈ listed, h ∈ hops stage1 stage2 := fun h hh => hlisted.mem_iff.mp hh
  rw [composeDocument_eq_run h2 hfit2]
  refine ⟨_, listed, hm, ?_, hlisted, ?_⟩
  · rw [SourceMap.ordered, hordered, List.map_map, sourceTable_composeCalls,
      nameTable_composeCalls]
    apply List.map_congr_left
    intro h hh
    rw [Function.comp_apply, Segment.mapping, Hop.mapping,
      Hop.generated_segment (hlines h (hmem h hh)).1,
      resolve_segment text (hmem h hh) (hlines h (hmem h hh)).2 hlength]
  · have hsorted := SourceMap.sortedBy_ordered hfit
    rw [SourceMap.ordered, hordered] at hsorted
    apply (List.pairwise_map.mp hsorted).imp_of_mem
    intro a b ha hb hab
    rw [Hop.generated_segment (hlines a (hmem a ha)).1,
      Hop.generated_segment (hlines b (hmem b hb)).1] at hab
    refine ⟨hab.1, fun hplace => ?_⟩
    exact (Hop.tieKey_segment_le_iff hlength (hnamed a (hmem a ha)) (hnamed b (hmem b hb))
      (hlines a (hmem a ha)).2 (hlines b (hmem b hb)).2).mp (hab.2 hplace)

/-- The entries of a map that lists the hops are those of the second stage, led through both. -/
theorem entries_of_hops {stage1 stage2 m : SourceMap} {fileName : String} {listed : List Hop}
    {mappings : List Mapping} (hmappings : m.mappings = listed.map (Hop.mapping fileName))
    (hperm : listed.Perm (hops stage1 stage2)) (hstage2 : stage2.mappings.Perm mappings) :
    (m.mappings.map Mapping.entry).Perm (mappings.filterMap (entryThrough? stage1)) := by
  have hentries : (hops stage1 stage2).map (Mapping.entry ∘ Hop.mapping fileName) =
      stage2.mappings.filterMap (entryThrough? stage1) := by
    rw [hops, List.map_filterMap]
    apply List.filterMap_congr
    intro x _
    rw [entryThrough?, follow?]
    cases x.origin with
    | none => rfl
    | some middle =>
      rw [Option.bind_some, Option.bind_some, Option.map_map, Option.map_map]
      rfl
  rw [hmappings, List.map_map]
  exact (hperm.map _).trans (hentries ▸ hstage2.filterMap _)

/-- A document that leads from the compiled text to the source, and turns two places around. -/
def turnedDocument : MapDocument where
  version := MapDocument.supportedVersion
  file := none
  sourceRoot := none
  sources := ["in.tsx"]
  sourcesContent := none
  names := []
  mappings := "AAEI,UAFJ"

/-- The map of `turnedDocument`. -/
def turnedMap : SourceMap where
  file := none
  sources := [⟨"in.tsx", none⟩]
  mappings := [⟨⟨1, 0⟩, some ⟨"in.tsx", ⟨3, 4⟩, none⟩⟩, ⟨⟨1, 10⟩, some ⟨"in.tsx", ⟨1, 0⟩, none⟩⟩]

theorem turnedDocument_decoded :
    SourceMap.ofDocument turnedDocument = .ok turnedMap ∧ turnedDocument.LinesFit := by
  have hdecode : MappingText.decode turnedDocument.mappings =
      .ok [⟨0, 0, some ⟨0, 2, 4, none⟩⟩, ⟨0, 10, some ⟨0, 0, 0, none⟩⟩] := by
    decide +kernel
  exact ⟨SourceMap.ofDocument_of_pairwise hdecode (by decide) (by decide),
    MapDocument.linesFit_of_decode hdecode (by decide)⟩

end MapChain
