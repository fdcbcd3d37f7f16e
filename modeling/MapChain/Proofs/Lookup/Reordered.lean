import MapChain.Proofs.Lookup.Decoded

/-!
# Segments in another order

Columns may go back within a line, so the same segments can be written in many orders. The sort key
of a segment holds all of it: segments with one key are one segment, sorting leaves nothing of the
order in the text, and documents that differ in this order only are decoded to the same map.

Main result: `ofDocument_eq_of_perm`.
-/

namespace MapChain

/-- **The sort key holds all of a segment.** -/
theorem Segment.sortKey_injective : Function.Injective sortKey := by
  rintro ⟨line, column, origin⟩ ⟨line', column', origin'⟩ h
  simp only [sortKey, generated, List.cons.injEq, UInt32.toNat_inj, UInt32.add_left_inj] at h
  obtain ⟨rfl, rfl, horigin⟩ := h
  -- Both without origin or both with one, and then both unnamed or both named
  cases origin with
  | none => cases origin' <;> simp at horigin ⊢
  | some o =>
    cases origin' with
    | none => simp at horigin
    | some o' =>
      obtain ⟨source, sline, scolumn, name⟩ := o
      obtain ⟨source', sline', scolumn', name'⟩ := o'
      cases name <;> cases name' <;> simp_all [-UInt32.toNat_add, UInt32.toNat_inj]

namespace SourceMap

/-- **Sorting forgets the order** in which segments are listed. -/
theorem ordered_eq_of_perm {segments segments' : List Segment} (h : segments.Perm segments') :
    ordered segments = ordered segments' := by
  have hperm : (ordered segments).Perm (ordered segments') :=
    (List.mergeSort_perm _ _).trans (h.trans (List.mergeSort_perm _ _).symm)
  refine hperm.eq_of_pairwise ?_ (pairwise_ordered segments) (pairwise_ordered segments')
  intro a b _ _ hab hba
  exact Segment.sortKey_injective (Segment.keyLe_antisymm hab hba)

/-- **The order of the segments does not matter.** Of two documents with the same tables whose texts
list the same segments, in whatever order, both are refused, or both are decoded to one map: with
the same list of mappings and the same answer for every position. -/
theorem ofDocument_eq_of_perm {d d' : MapDocument} {segments segments' : List Segment}
    (hfile : d.file = d'.file) (hroot : d.sourceRoot = d'.sourceRoot)
    (hsources : d.sources = d'.sources) (hcontents : d.sourcesContent = d'.sourcesContent)
    (hnames : d.names = d'.names) (hdecode : MappingText.decode d.mappings = .ok segments)
    (hdecode' : MappingText.decode d'.mappings = .ok segments')
    (hperm : segments.Perm segments') :
    ((∃ e, ofDocument d = .error e) ∧ ∃ e, ofDocument d' = .error e) ∨
      ∃ m, ofDocument d = .ok m ∧ ofDocument d' = .ok m := by
  by_cases htables : ∀ s ∈ segments, s.InTables (rooted d.sourceRoot d.sources) d.names
  · refine .inr ⟨_, ofDocument_eq_ok_iff.mpr ⟨segments, hdecode, htables, rfl⟩,
      ofDocument_eq_ok_iff.mpr ⟨segments', hdecode', ?_, ?_⟩⟩
    · intro s hs
      rw [← hroot, ← hsources, ← hnames]
      exact htables s (hperm.mem_iff.mpr hs)
    · rw [hfile, hroot, hsources, hcontents, hnames, ordered_eq_of_perm hperm]
  · -- The segment that is not in the tables is in both texts
    refine .inl ⟨exists_eq_error_iff.mpr ?_, exists_eq_error_iff.mpr ?_⟩
    · rintro ⟨m, hm⟩
      obtain ⟨listed, hlisted, hall, -⟩ := ofDocument_eq_ok_iff.mp hm
      obtain rfl := Except.ok.inj (hdecode.symm.trans hlisted)
      exact htables hall
    · rintro ⟨m, hm⟩
      obtain ⟨listed, hlisted, hall, -⟩ := ofDocument_eq_ok_iff.mp hm
      obtain rfl := Except.ok.inj (hdecode'.symm.trans hlisted)
      rw [← hroot, ← hsources, ← hnames] at hall
      exact htables fun s hs => hall s (hperm.mem_iff.mp hs)

/-- The document with two segments at one place, its first line listed from left to right and the
two the other way round. -/
def reorderedDocument : MapDocument := { tiedDocument with mappings := "GCAC,AAAAA,EDAD;C" }

/-- Its segments in the order of the text. -/
def reorderedSegments : List Segment :=
  [⟨0, 3, some ⟨1, 0, 1, none⟩⟩, ⟨0, 3, some ⟨1, 0, 1, some 0⟩⟩, ⟨0, 5, some ⟨0, 0, 0, none⟩⟩,
    ⟨1, 1, none⟩]

/-- Both documents are decoded to one map. -/
theorem ofDocument_reorderedDocument :
    MappingText.decode tiedDocument.mappings = .ok tiedSegments ∧
      MappingText.decode reorderedDocument.mappings = .ok reorderedSegments ∧
      tiedSegments.Perm reorderedSegments ∧
      ∃ m, ofDocument tiedDocument = .ok m ∧ ofDocument reorderedDocument = .ok m := by
  have hdecode : MappingText.decode tiedDocument.mappings = .ok tiedSegments := by
    decide +kernel
  have hdecode' : MappingText.decode reorderedDocument.mappings = .ok reorderedSegments := by
    decide +kernel
  have hperm : tiedSegments.Perm reorderedSegments := by decide
  refine ⟨hdecode, hdecode', hperm, ?_⟩
  rcases @ofDocument_eq_of_perm tiedDocument reorderedDocument _ _ rfl rfl rfl rfl rfl hdecode
    hdecode' hperm with ⟨herror, -⟩ | hm
  · -- The tables have all of its segments
    refine absurd ⟨_, ofDocument_eq_ok_iff.mpr ⟨_, hdecode, ?_, rfl⟩⟩
      (exists_eq_error_iff.mp herror)
    simp [tiedSegments, Segment.InTables, SegmentOrigin.resolve?, rooted, tiedDocument]
  · exact hm

end SourceMap

end MapChain
