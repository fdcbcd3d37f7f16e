import MapChain.Json.Equality
import MapChain.Proofs.Compose.Mappings
import MapChain.Proofs.Identity.Tokens
import MapChain.Proofs.Relocate.Points

/-!
# Composing with an identity map

A stage that leads every position it is asked for to itself changes nothing, in whatever form the
positions of the other stage come. The identity map of a text is such a stage for the starts of its
tokens.

## Layers

- **Fixed positions**: what composing does with tuples, mappings and points whose positions a stage
  fixes.
- **Statement**: `compose_identity`.
- **The last line**: a mapping on the last line of 32 bits is not kept where it is
  (`not_perm_lastLine`).
-/

namespace MapChain

/-! ## Fixed positions -/

/-- A map leads a position to itself. -/
def SourceMap.Fixes (m : SourceMap) (p : Position) : Prop :=
  (m.trace p).map (·.position) = some p

section Fixed

variable {stage1 : SourceMap}

theorem SourceMap.Fixes.exists_trace {p : Position} (h : stage1.Fixes p) :
    ∃ o, stage1.trace p = some o ∧ o.position = p :=
  Option.map_eq_some_iff.mp h

theorem composeTuple?_of_fixes {t : MappingTuple} {p : Position} (hp : t.origin = some p)
    (hline : p.line ≠ 0) (hfixes : stage1.Fixes p) : composeTuple? stage1 t = some t := by
  obtain ⟨o, ho, hposition⟩ := hfixes.exists_trace
  have htraceable : t.traceable? = some p := by
    rw [MappingTuple.traceable?, hp]
    simp [hline]
  have hsame : { t with origin := some p } = t := by rw [← hp]
  rw [composeTuple?, htraceable]
  simp [ho, hposition, hsame]

theorem composeTuples_of_fixes {ts : List MappingTuple}
    (h : ∀ t ∈ ts, ∃ p, t.origin = some p ∧ p.line ≠ 0 ∧ stage1.Fixes p) :
    composeTuples stage1 ts = ts := by
  have hsame : ∀ t ∈ ts, composeTuple? stage1 t = some t := by
    intro t ht
    obtain ⟨p, hp, hline, hfixes⟩ := h t ht
    exact composeTuple?_of_fixes hp hline hfixes
  rw [composeTuples, List.filterMap_congr hsame]
  exact List.filterMap_some

theorem entryThrough?_of_fixes {x : Mapping} {o : Origin} (ho : x.origin = some o)
    (hfixes : stage1.Fixes o.position) : entryThrough? stage1 x = some x.entry := by
  obtain ⟨r, hr, hposition⟩ := hfixes.exists_trace
  rw [entryThrough?, follow?, Mapping.entry, ho]
  simp [hr, hposition]

/-- A tree whose points are fixed stays, and each of its points counts. -/
theorem relocate_of_fixes {tree : Json} (hsorted : tree.Sorted)
    (h : ∀ π p, Relocate.IsPoint tree π p → stage1.Fixes p) :
    (relocate stage1 tree).1 = tree ∧
      {π | ∃ p, Relocate.IsPoint tree π p}.encard = (relocate stage1 tree).2 := by
  -- What a point takes is what it has, so the tree is a relocation of itself
  have hself : Relocate.IsRelocation stage1 tree tree := by
    refine ⟨hsorted, fun π p o hp ho => ?_, fun _ _ => rfl⟩
    obtain ⟨o', ho', hposition⟩ := (h π p hp).exists_trace
    obtain rfl := Option.some.inj (ho.symm.trans ho')
    have hat := Relocate.positionAt?_eq_some_iff.mp (Relocate.isPoint_iff.mp hp).2
    rw [Json.headAt?_eq_number_iff, Json.headAt?_eq_number_iff, ← hposition] at hat
    exact hat
  have hresolved : {π | ∃ p, Relocate.IsPoint tree π p} =
      {π | ∃ p, Relocate.IsPoint tree π p ∧ (stage1.trace p).isSome} := by
    ext π
    constructor
    · rintro ⟨p, hp⟩
      obtain ⟨o, ho, -⟩ := (h π p hp).exists_trace
      exact ⟨p, hp, by rw [ho]; rfl⟩
    · rintro ⟨p, hp, -⟩
      exact ⟨p, hp⟩
  rw [hresolved]
  exact ⟨(Relocate.isRelocation_relocate hsorted stage1).unique hself,
    Relocate.encard_resolved_points hsorted stage1⟩

end Fixed

/-! ## Statement -/

namespace Identity

theorem fixes_of_isTokenStart {source text : String} {m : SourceMap}
    (hm : SourceMap.ofDocument (MapBuilder.identity source text).toDocument = .ok m) {p : Position}
    (hp : IsTokenStart text p) : m.Fixes p := by
  rw [SourceMap.Fixes, trace_identity hm hp]
  rfl

/-- **The identity law of composition.** The identity map of a text is decoded. Composed with it,
tuples and trees whose positions are starts of tokens stay as they are, and a map whose origins are
starts of tokens keeps its mappings, now attributed to one file.

Texts of any length are allowed, as only the tokens whose starts are positions of 32 bits count.
Generated lines count from one; a line is zero only where the decoded one is the last of 32 bits. -/
theorem compose_identity (source text : String) :
    ∃ m, SourceMap.ofDocument (MapBuilder.identity source text).toDocument = .ok m ∧
      (∀ ts : List MappingTuple,
        (∀ t ∈ ts, ∃ p, t.origin = some p ∧ IsTokenStart text p) → composeTuples m ts = ts) ∧
      (∀ (d2 : MapDocument) (stage2 : SourceMap) (fileName content : String),
        SourceMap.ofDocument d2 = .ok stage2 →
        (∀ x ∈ stage2.mappings, x.generated.line ≠ 0 ∧
          ∃ o, x.origin = some o ∧ IsTokenStart text o.position) →
        ∃ composed,
          SourceMap.ofDocument (composeDocument m stage2 fileName content) = .ok composed ∧
          (composed.mappings.map Mapping.entry).Perm (stage2.mappings.map Mapping.entry) ∧
          ∀ x ∈ composed.mappings, ∃ o, x.origin = some o ∧ o.source = fileName) ∧
      ∀ tree : Json, tree.Sorted →
        (∀ π p, Relocate.IsPoint tree π p → IsTokenStart text p) →
        (relocate m tree).1 = tree ∧
          {π | ∃ p, Relocate.IsPoint tree π p}.encard = (relocate m tree).2 := by
  obtain ⟨m, hm, -⟩ := ofDocument_identity source text
  have hfit := linesFit_identity source text
  refine ⟨m, hm, fun ts hts => ?_, fun d2 stage2 fileName content h2 hstarts => ?_,
    fun tree hsorted hpoints => ?_⟩
  · apply composeTuples_of_fixes
    intro t ht
    obtain ⟨p, hp, hstart⟩ := hts t ht
    exact ⟨p, hp, line_ne_zero_of_isTokenStart hstart, fixes_of_isTokenStart hm hstart⟩
  · -- A line that does not fit would be read as line zero
    have hfit2 : d2.LinesFit := by
      apply SourceMap.linesFit_of_line_ne_zero h2
      intro x hx
      obtain ⟨hline, o, ho, hstart⟩ := hstarts x hx
      refine ⟨hline, fun r hr => ?_⟩
      obtain rfl := Option.some.inj (ho.symm.trans hr)
      exact line_ne_zero_of_isTokenStart hstart
    obtain ⟨composed, listed, hcomposed, hmappings, hperm, -⟩ :=
      ofDocument_composeDocument hm h2 hfit hfit2 fileName content
    have hentries := entries_of_hops hmappings hperm (List.Perm.refl stage2.mappings)
    have hsame : ∀ x ∈ stage2.mappings, entryThrough? m x = some x.entry := by
      intro x hx
      obtain ⟨-, o, ho, hstart⟩ := hstarts x hx
      exact entryThrough?_of_fixes ho (fixes_of_isTokenStart hm hstart)
    rw [List.filterMap_congr hsame, List.filterMap_eq_map'] at hentries
    refine ⟨composed, hcomposed, hentries, fun x hx => ?_⟩
    rw [hmappings] at hx
    obtain ⟨h, -, rfl⟩ := List.mem_map.mp hx
    exact ⟨_, rfl, rfl⟩
  · exact relocate_of_fixes hsorted fun π p hp => fixes_of_isTokenStart hm (hpoints π p hp)

/-- A text with a character of two units and with blanks at the start of a line. -/
def wideText : String := "𝒳 b\n\t c"

/-- A document whose origins are the last two tokens of `wideText`. -/
def wideDocument : MapDocument where
  version := MapDocument.supportedVersion
  file := none
  sourceRoot := none
  sources := ["mid.js"]
  sourcesContent := none
  names := []
  mappings := "AAAG,IACD"

/-- The map of `wideDocument`. -/
def wideMap : SourceMap where
  file := none
  sources := [⟨"mid.js", none⟩]
  mappings := [⟨⟨1, 0⟩, some ⟨"mid.js", ⟨1, 3⟩, none⟩⟩, ⟨⟨1, 4⟩, some ⟨"mid.js", ⟨2, 2⟩, none⟩⟩]

private theorem wideDocument_decoded : SourceMap.ofDocument wideDocument = .ok wideMap := by
  have hdecode : MappingText.decode wideDocument.mappings =
      .ok [⟨0, 0, some ⟨0, 0, 3, none⟩⟩, ⟨0, 4, some ⟨0, 1, 2, none⟩⟩] := by
    decide +kernel
  exact SourceMap.ofDocument_of_pairwise hdecode (by decide) (by decide)

/-- A tree with one location, between the last two tokens of `wideText`. -/
def wideTree : Json :=
  .object [("loc", .object [("end", .object [("column", .ofUInt32 2), ("line", .ofUInt32 2)]),
    ("start", .object [("column", .ofUInt32 3), ("line", .ofUInt32 1)])])]

private theorem isTokenStart_wideText :
    IsTokenStart wideText ⟨1, 3⟩ ∧ IsTokenStart wideText ⟨2, 2⟩ := by
  constructor
  · refine ⟨0, ['𝒳', ' '], ['b'], [], by decide, by simp, ?_, ?_, nofun, rfl, rfl⟩
    · exact List.forall_mem_singleton.mpr rfl
    · rintro c ⟨⟩
      rfl
  · refine ⟨1, ['\t', ' '], ['c'], [], by decide, by simp, ?_, ?_, nofun, rfl, rfl⟩
    · exact List.forall_mem_singleton.mpr rfl
    · rintro c ⟨⟩
      rfl

/-- The identity map of `wideText` changes neither tuples nor a map nor a tree. -/
theorem compose_identity_wideText :
    ∃ m composed, SourceMap.ofDocument (MapBuilder.identity "in.ts" wideText).toDocument = .ok m ∧
      IsTokenStart wideText ⟨1, 3⟩ ∧ IsTokenStart wideText ⟨2, 2⟩ ∧
      composeTuples m [⟨⟨5, 1⟩, some ⟨1, 3⟩, some "n"⟩, ⟨⟨0, 0⟩, some ⟨2, 2⟩, none⟩] =
        [⟨⟨5, 1⟩, some ⟨1, 3⟩, some "n"⟩, ⟨⟨0, 0⟩, some ⟨2, 2⟩, none⟩] ∧
      SourceMap.ofDocument wideDocument = .ok wideMap ∧
      SourceMap.ofDocument (composeDocument m wideMap "app.ts" "text") = .ok composed ∧
      (composed.mappings.map Mapping.entry).Perm
        [(⟨1, 0⟩, some ⟨1, 3⟩, none), (⟨1, 4⟩, some ⟨2, 2⟩, none)] ∧
      wideTree.Sorted ∧ (∀ π p, Relocate.IsPoint wideTree π p → IsTokenStart wideText p) ∧
      (relocate m wideTree).1 = wideTree := by
  obtain ⟨hb, hc⟩ := isTokenStart_wideText
  obtain ⟨m, hm, htuples, hdocuments, htrees⟩ := compose_identity "in.ts" wideText
  have hsorted : wideTree.Sorted := by
    have hsame : wideTree.sorted = wideTree := by decide +kernel
    rw [← hsame]
    exact Json.sorted_sorted wideTree
  have hpoints : ∀ π p, Relocate.IsPoint wideTree π p → IsTokenStart wideText p := by
    intro π p hp
    obtain ⟨-, hposition⟩ := Relocate.isPoint_iff.mp hp
    have hall : ∀ π ∈ wideTree.paths, Relocate.positionAt? wideTree π = none ∨
        Relocate.positionAt? wideTree π = some ⟨1, 3⟩ ∨
        Relocate.positionAt? wideTree π = some ⟨2, 2⟩ := by
      decide +kernel
    have hπ : π ∈ wideTree.paths := by
      obtain ⟨members, hmembers, -⟩ := Option.bind_eq_some_iff.mp hposition
      rw [hsorted.mem_paths_iff, Relocate.bind_fields?_eq_some_iff.mp hmembers]
      rfl
    rcases hall π hπ with h | h | h <;> rw [hposition] at h <;> cases h
    · exact hb
    · exact hc
  have horigins : ∀ x ∈ wideMap.mappings, x.generated.line ≠ 0 ∧
      ∃ o, x.origin = some o ∧ IsTokenStart wideText o.position := by
    simp [wideMap, hb, hc]
  obtain ⟨composed, hcomposed, hentries, -⟩ :=
    hdocuments wideDocument wideMap "app.ts" "text" wideDocument_decoded horigins
  exact ⟨m, composed, hm, hb, hc, htuples _ (by simp [hb, hc]), wideDocument_decoded, hcomposed,
    hentries, hsorted, hpoints, (htrees wideTree hsorted hpoints).1⟩

/-! ## The last line -/

/-- A document of one segment, on the given line counted from zero. -/
def lineDocument (line : UInt32) : MapDocument where
  version := MapDocument.supportedVersion
  file := none
  sourceRoot := none
  sources := ["mid.js"]
  sourcesContent := none
  names := []
  mappings := MappingText.encode [⟨line, 0, some ⟨0, 0, 0, none⟩⟩]

/-- The map of this document. -/
def lineMap (line : UInt32) : SourceMap where
  file := none
  sources := [⟨"mid.js", none⟩]
  mappings := [⟨⟨line + 1, 0⟩, some ⟨"mid.js", ⟨1, 0⟩, none⟩⟩]

theorem ofDocument_lineDocument (line : UInt32) :
    SourceMap.ofDocument (lineDocument line) = .ok (lineMap line) := by
  have hdecode : MappingText.decode (lineDocument line).mappings =
      .ok [⟨line, 0, some ⟨0, 0, 0, none⟩⟩] :=
    MappingText.decode_encode (List.pairwise_singleton _ _)
  rw [SourceMap.ofDocument_of_pairwise hdecode _ (List.pairwise_singleton _ _)]
  · rfl
  · rintro s hs o ho
    obtain rfl := List.mem_singleton.mp hs
    cases ho
    rfl

/-- The calls that compose this map, where the first stage leads its one origin to itself. -/
def lineCalls (line : UInt32) (fileName text : String) : List MapBuilder.Call :=
  [.setContent fileName text, .add ⟨line + 1, 0⟩ (some (fileName, ⟨1, 0⟩)) none]

theorem composeDocument_lineMap {stage1 : SourceMap} (hfixes : stage1.Fixes ⟨1, 0⟩) (line : UInt32)
    (fileName text : String) :
    composeDocument stage1 (lineMap line) fileName text =
      (MapBuilder.run none (lineCalls line fileName text)).toDocument := by
  obtain ⟨o, ho, hposition⟩ := hfixes.exists_trace
  have hmapping : composeMapping? stage1 ⟨⟨line + 1, 0⟩, some ⟨"mid.js", ⟨1, 0⟩, none⟩⟩ =
      some (⟨line + 1, 0⟩, ⟨1, 0⟩, none) := by
    simp [composeMapping?, ho, hposition]
  rw [composeDocument, lineMap, List.filterMap_cons_some hmapping]
  rfl

/-- The composed mapping is read back on its line, or on line one if that is zero. -/
theorem exists_composed_lineMap {stage1 : SourceMap} (hfixes : stage1.Fixes ⟨1, 0⟩) (line : UInt32)
    (fileName text : String) :
    ∃ m, SourceMap.ofDocument (composeDocument stage1 (lineMap line) fileName text) = .ok m ∧
      m.mappings.map Mapping.entry = [((⟨line + 1, 0⟩ : Position).counted, some ⟨1, 0⟩, none)] := by
  have hsources : (MapBuilder.sourceTable (lineCalls line fileName text)).length ≤ UInt32.size := by
    have hle : ((lineCalls line fileName text).filterMap MapBuilder.Call.source?).dedup.length ≤
        2 := (List.dedup_sublist _).length_le
    rw [MapBuilder.sourceTable, MapBuilder.length_table]
    exact hle.trans (by decide)
  have hnames : (MapBuilder.nameTable (lineCalls line fileName text)).length ≤ UInt32.size :=
    Nat.zero_le _
  obtain ⟨m, hm, hperm⟩ := MapBuilder.exists_mappings_perm none hsources hnames
  rw [← composeDocument_lineMap hfixes] at hm
  refine ⟨m, hm, ?_⟩
  rw [List.perm_singleton.mp hperm]
  rfl

/-- The last line of 32 bits, counted from zero. -/
def lastLine : UInt32 := UInt32.ofNat (2 ^ 32 - 1)

/-- **The last line of 32 bits is not kept.** Counted from one it is zero, and the composed document
has the mapping on line one. -/
theorem not_perm_lastLine :
    ∃ m composed, SourceMap.ofDocument (MapBuilder.identity "in.ts" "a").toDocument = .ok m ∧
      SourceMap.ofDocument (lineDocument lastLine) = .ok (lineMap lastLine) ∧
      (∀ x ∈ (lineMap lastLine).mappings,
        ∃ o, x.origin = some o ∧ IsTokenStart "a" o.position) ∧
      SourceMap.ofDocument (composeDocument m (lineMap lastLine) "app.ts" "text") = .ok composed ∧
      ¬ (composed.mappings.map Mapping.entry).Perm
        ((lineMap lastLine).mappings.map Mapping.entry) := by
  have hstart : IsTokenStart "a" ⟨1, 0⟩ := by
    refine ⟨0, [], ['a'], [], by decide, by simp, ?_, nofun, nofun, rfl, rfl⟩
    exact List.forall_mem_singleton.mpr rfl
  obtain ⟨m, hm, -⟩ := ofDocument_identity "in.ts" "a"
  obtain ⟨composed, hcomposed, hentries⟩ := exists_composed_lineMap
    (fixes_of_isTokenStart hm hstart) lastLine "app.ts" "text"
  refine ⟨m, composed, hm, ofDocument_lineDocument _, ?_, hcomposed, ?_⟩
  · exact List.forall_mem_singleton.mpr ⟨_, rfl, hstart⟩
  · rw [hentries]
    decide

end Identity

end MapChain
