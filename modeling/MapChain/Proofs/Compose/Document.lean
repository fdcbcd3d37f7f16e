import Mathlib.Data.List.Perm.Subperm
import MapChain.Compose.Chain
import MapChain.Proofs.Builder.RoundTrip

/-!
# Looking up a composed document

The composed document is decoded, and looking up a position in it is looking for the closest of the
mappings that resolve at both stages.

## Layers

- **Hops**: `hops` lists the mappings that resolve at both stages and `Hop.key` orders those at one
  place. Their lines are not zero (`line_ne_zero_of_mem_hops`).
- **Calls**: `composeDocument_eq_run` builds the document by adding the hops.
- **Order**: `tieKey_segment_le_iff` says that writing hops as segments keeps their order.
- **Statement**: `trace_composeDocument`.
-/

namespace MapChain

/-! ## Hops -/

/-- A mapping that resolves at both stages. -/
structure Hop where
  generated : Position
  /-- Where the first stage leads. -/
  origin : Position
  /-- The name that the second stage gives. -/
  name : Option String

/-- The mappings of the second stage that resolve at both stages, in its order. -/
def hops (stage1 stage2 : SourceMap) : List Hop :=
  stage2.mappings.filterMap fun m => m.origin.bind fun middle =>
    (stage1.trace middle.position).map fun o => ⟨m.generated, o.position, middle.name⟩

/-- The names of the named hops, as often as they occur. -/
def hopNames (stage1 stage2 : SourceMap) : List String :=
  (hops stage1 stage2).filterMap (·.name)

namespace Hop

/-- Where the name of a hop first occurs; to have none comes first. -/
def rank (named : List String) (h : Hop) : WithBot ℕ :=
  match h.name with
  | none => ⊥
  | some n => WithBot.some (named.idxOf n)

/-- Orders hops at one place: by their origins, then by their names. -/
def key (named : List String) (h : Hop) : ℕ ×ₗ ℕ ×ₗ WithBot ℕ :=
  toLex (h.origin.line.toNat, toLex (h.origin.column.toNat, h.rank named))

/-- The call that adds a hop. -/
def call (fileName : String) (h : Hop) : MapBuilder.Call :=
  .add h.generated (some (fileName, h.origin)) h.name

/-- The mapping that is pending for a hop, where the only source is the first. -/
def pending (named : List String) (h : Hop) : PendingMapping :=
  ⟨h.generated, some (0, h.origin), h.name.map (MapBuilder.table named).idxOf⟩

/-- The segment that is written for a hop. -/
def segment (named : List String) (h : Hop) : Segment := MapBuilder.segment (h.pending named)

end Hop

/-- Every hop leads from one line that is not zero to another. -/
theorem line_ne_zero_of_mem_hops {d1 d2 : MapDocument} {stage1 stage2 : SourceMap}
    (h1 : SourceMap.ofDocument d1 = .ok stage1) (h2 : SourceMap.ofDocument d2 = .ok stage2)
    (hfit1 : d1.LinesFit) (hfit2 : d2.LinesFit) {h : Hop} (hh : h ∈ hops stage1 stage2) :
    h.generated.line ≠ 0 ∧ h.origin.line ≠ 0 := by
  obtain ⟨m, hm, hhop⟩ := List.mem_filterMap.mp hh
  obtain ⟨middle, hmiddle, hhop⟩ := Option.bind_eq_some_iff.mp hhop
  obtain ⟨o, ho, rfl⟩ := Option.map_eq_some_iff.mp hhop
  exact ⟨(SourceMap.mapping_of_mem h2 hfit2 hm).1, SourceMap.line_ne_zero_of_trace h1 hfit1 ho⟩

/-- The names of hops are few enough to be numbered in 32 bits, since the second stage numbers
them. -/
theorem length_table_hopNames_le (stage1 : SourceMap) {d2 : MapDocument} {stage2 : SourceMap}
    (h2 : SourceMap.ofDocument d2 = .ok stage2) (hfit2 : d2.LinesFit) :
    (MapBuilder.table (hopNames stage1 stage2)).length ≤ UInt32.size := by
  -- Each name stands at a 32-bit place of the second table
  have hsubset : MapBuilder.table (hopNames stage1 stage2) ⊆ d2.names.take UInt32.size := by
    intro n hn
    obtain ⟨h, hh, hname⟩ := List.mem_filterMap.mp (MapBuilder.mem_table.mp hn)
    obtain ⟨m, hm, hhop⟩ := List.mem_filterMap.mp hh
    obtain ⟨middle, hmiddle, hhop⟩ := Option.bind_eq_some_iff.mp hhop
    obtain ⟨o, ho, rfl⟩ := Option.map_eq_some_iff.mp hhop
    obtain ⟨i, hi⟩ := ((SourceMap.mapping_of_mem h2 hfit2 hm).2 middle hmiddle).2 n hname
    have htake : (d2.names.take UInt32.size)[i.toNat]? = some n := by
      rw [List.getElem?_take_of_lt i.toNat_lt, hi]
    exact List.mem_of_getElem? htake
  have hle := ((MapBuilder.nodup_table _).subperm hsubset).length_le
  exact hle.trans (List.length_take_le _ _)

/-! ## Calls -/

/-- The calls that build the composed document. -/
def composeCalls (stage1 stage2 : SourceMap) (fileName text : String) : List MapBuilder.Call :=
  .setContent fileName text :: (hops stage1 stage2).map (Hop.call fileName)

/-- Composing adds the hops to a builder that has the text of the source. -/
theorem composeDocument_eq_run {d2 : MapDocument} {stage1 stage2 : SourceMap}
    (h2 : SourceMap.ofDocument d2 = .ok stage2) (hfit2 : d2.LinesFit) (fileName text : String) :
    composeDocument stage1 stage2 fileName text =
      (MapBuilder.run none (composeCalls stage1 stage2 fileName text)).toDocument := by
  have hhops : stage2.mappings.filterMap (composeMapping? stage1) =
      (hops stage1 stage2).map fun h => (h.generated, h.origin, h.name) := by
    rw [hops, List.map_filterMap]
    apply List.filterMap_congr
    intro m hm
    rw [composeMapping?]
    cases hmiddle : m.origin with
    | none => rfl
    | some middle =>
      -- The test for line zero never fires
      have hline := ((SourceMap.mapping_of_mem h2 hfit2 hm).2 middle hmiddle).1
      simp only [Option.bind_eq_bind, Option.bind_some, if_neg hline]
      cases stage1.trace middle.position <;> rfl
  rw [composeDocument, hhops, MapBuilder.run, composeCalls, List.foldl_cons, List.foldl_map,
    List.foldl_map]
  rfl

theorem sourceTable_composeCalls (stage1 stage2 : SourceMap) (fileName text : String) :
    MapBuilder.sourceTable (composeCalls stage1 stage2 fileName text) = [fileName] := by
  apply MapBuilder.table_eq_singleton
  · intro s hs
    obtain ⟨c, hc, hsource⟩ := List.mem_filterMap.mp hs
    rcases List.mem_cons.mp hc with rfl | hc
    · cases hsource
      rfl
    · obtain ⟨h, -, rfl⟩ := List.mem_map.mp hc
      cases hsource
      rfl
  · exact List.mem_filterMap.mpr ⟨_, List.mem_cons_self, rfl⟩

theorem nameTable_composeCalls (stage1 stage2 : SourceMap) (fileName text : String) :
    MapBuilder.nameTable (composeCalls stage1 stage2 fileName text) =
      MapBuilder.table (hopNames stage1 stage2) := by
  rw [MapBuilder.nameTable, composeCalls, List.filterMap_cons_none rfl, List.filterMap_map]
  rfl

theorem lastText_composeCalls (stage1 stage2 : SourceMap) (fileName text : String) :
    MapBuilder.lastText (composeCalls stage1 stage2 fileName text) fileName = some text := by
  have hset : MapBuilder.Call.text? fileName (.setContent fileName text) = some text := if_pos rfl
  have hadd : ((hops stage1 stage2).map (Hop.call fileName)).filterMap
      (MapBuilder.Call.text? fileName) = [] := by
    rw [List.filterMap_map, List.filterMap_eq_nil_iff]
    exact fun h _ => rfl
  rw [MapBuilder.lastText, composeCalls, List.filterMap_cons_some hset, hadd]
  rfl

theorem pending?_call (named : List String) (fileName : String) (h : Hop) :
    (h.call fileName).pending? [fileName] (MapBuilder.table named) = some (h.pending named) := by
  simp [Hop.call, MapBuilder.Call.pending?, Hop.pending]

/-- What is written are the segments of the hops. -/
theorem segments_composeCalls (stage1 stage2 : SourceMap) (fileName text : String) :
    (MapBuilder.pendingMappings (composeCalls stage1 stage2 fileName text)).map MapBuilder.segment =
      (hops stage1 stage2).map (Hop.segment (hopNames stage1 stage2)) := by
  have hpending : (MapBuilder.pendingMappings (composeCalls stage1 stage2 fileName text)) =
      (hops stage1 stage2).map (Hop.pending (hopNames stage1 stage2)) := by
    rw [MapBuilder.pendingMappings, sourceTable_composeCalls, nameTable_composeCalls, composeCalls,
      List.filterMap_cons_none rfl, List.filterMap_map, ← List.filterMap_eq_map]
    exact List.filterMap_congr fun h _ => pending?_call _ fileName h
  rw [hpending, List.map_map]
  rfl

/-! ## Order -/

namespace Hop

variable {named : List String}

theorem originKey_segment (h : Hop) :
    Segment.originKey (h.segment named).origin =
      ↑(toLex (0, toLex (h.origin.line.toNat - 1, h.origin.column.toNat))) := by
  simp only [segment, MapBuilder.segment, pending, Option.map_some, Segment.originKey,
    toNat_line_sub_one]
  rfl

/-- The name of a written hop is in the order of first use. -/
theorem nameKey_segment_le_iff (hlength : (MapBuilder.table named).length ≤ UInt32.size) {a b : Hop}
    (ha : ∀ n ∈ a.name, n ∈ named) (hb : ∀ n ∈ b.name, n ∈ named) :
    Segment.nameKey (a.segment named).origin ≤
        Segment.nameKey (b.segment named).origin ↔
      a.rank named ≤ b.rank named := by
  obtain ⟨_, _, name⟩ := a
  obtain ⟨_, _, name'⟩ := b
  cases name with
  | none => simp [Segment.nameKey, segment, MapBuilder.segment, pending, rank]
  | some n =>
    cases name' with
    | none => simp [Segment.nameKey, segment, MapBuilder.segment, pending, rank]
    | some n' =>
      simp only [Segment.nameKey, segment, MapBuilder.segment, pending, rank, Option.map_some,
        MapBuilder.toNat_idxOf_table (ha n rfl) hlength,
        MapBuilder.toNat_idxOf_table (hb n' rfl) hlength]
      exact_mod_cast MapBuilder.idxOf_table_le_iff (ha n rfl) (hb n' rfl)

/-- **Writing hops keeps their order** at one place. -/
theorem tieKey_segment_le_iff (hlength : (MapBuilder.table named).length ≤ UInt32.size) {a b : Hop}
    (ha : ∀ n ∈ a.name, n ∈ named) (hb : ∀ n ∈ b.name, n ∈ named)
    (haline : a.origin.line ≠ 0) (hbline : b.origin.line ≠ 0) :
    (a.segment named).tieKey ≤ (b.segment named).tieKey ↔
      a.key named ≤ b.key named := by
  have hpos : ∀ line : UInt32, line ≠ 0 → 0 < line.toNat := fun line hline =>
    Nat.pos_of_ne_zero fun hzero => hline (UInt32.toNat_inj.mp hzero)
  have hapos := hpos _ haline
  have hbpos := hpos _ hbline
  rw [Segment.tieKey, Segment.tieKey, key, key, originKey_segment, originKey_segment,
    Prod.Lex.toLex_le_toLex, Prod.Lex.toLex_le_toLex, nameKey_segment_le_iff hlength ha hb]
  simp only [WithBot.coe_lt_coe, WithBot.coe_inj, Prod.Lex.toLex_lt_toLex, Prod.Lex.toLex_le_toLex,
    EmbeddingLike.apply_eq_iff_eq, Prod.mk.injEq, Nat.lt_irrefl, true_and, false_or]
  -- Lines that are not zero compare as they do when they are counted from zero
  have hline : a.origin.line.toNat - 1 < b.origin.line.toNat - 1 ↔
      a.origin.line.toNat < b.origin.line.toNat := by omega
  have heq : a.origin.line.toNat - 1 = b.origin.line.toNat - 1 ↔
      a.origin.line.toNat = b.origin.line.toNat := by omega
  rw [hline, heq, and_or_left, and_assoc, or_assoc]

/-- A written hop stands where the hop does. -/
theorem generated_segment {h : Hop} (hline : h.generated.line ≠ 0) :
    (h.segment named).generated = h.generated := by
  rw [segment, MapBuilder.generated_segment]
  exact Position.counted_of_ne hline

end Hop

/-- A written hop is resolved to its origin in the file, with its name. -/
theorem resolve_segment {stage1 stage2 : SourceMap} {fileName : String} (text : String) {h : Hop}
    (hh : h ∈ hops stage1 stage2) (hline : h.origin.line ≠ 0)
    (hlength : (MapBuilder.table (hopNames stage1 stage2)).length ≤ UInt32.size) :
    (h.segment (hopNames stage1 stage2)).origin.bind
        (·.resolve? [fileName] (MapBuilder.table (hopNames stage1 stage2))) =
      some ⟨fileName, h.origin, h.name⟩ := by
  have hsources := sourceTable_composeCalls stage1 stage2 fileName text
  have hnames := nameTable_composeCalls stage1 stage2 fileName text
  have hcall : h.call fileName ∈ composeCalls stage1 stage2 fileName text :=
    List.mem_cons_of_mem _ (List.mem_map_of_mem hh)
  have hmapping := (MapBuilder.mapping_segment hcall (by rw [hsources]; simp [UInt32.size])
    (by rwa [hnames]) (by rw [hsources, hnames]; exact pending?_call _ fileName h))
  rw [hsources, hnames] at hmapping
  have horigin : some (⟨fileName, h.origin.counted, h.name⟩ : Origin) = _ :=
    congrArg Mapping.origin (Option.some.inj hmapping)
  rw [Position.counted_of_ne hline] at horigin
  exact horigin.symm

/-! ## Statement -/

/-- **Looking up a composed document.** Composing two decoded maps gives a document that is decoded
into a map with the file as its only source, and the text embedded. Looking up a position in it is
looking for the closest hop: of those on its line and not after it, at the greatest column, the
least by origin and then by name, an unnamed one first and the others as their names first occur
among all hops. The answer is the origin of this hop in the file, with its own name. -/
theorem trace_composeDocument {d1 d2 : MapDocument} {stage1 stage2 : SourceMap}
    (h1 : SourceMap.ofDocument d1 = .ok stage1) (h2 : SourceMap.ofDocument d2 = .ok stage2)
    (hfit1 : d1.LinesFit) (hfit2 : d2.LinesFit) (fileName text : String) :
    ∃ m, SourceMap.ofDocument (composeDocument stage1 stage2 fileName text) = .ok m ∧
      m.sources = [⟨fileName, some text⟩] ∧
      ∀ p, m.trace p =
        (Lookup.closest? Hop.generated (Hop.key (hopNames stage1 stage2))
          (hops stage1 stage2) p).map fun h => ⟨fileName, h.origin, h.name⟩ := by
  -- Step 1: no line is zero, and the table of names is small enough
  have hlength := length_table_hopNames_le stage1 h2 hfit2
  have hlines : ∀ h ∈ hops stage1 stage2, h.generated.line ≠ 0 ∧ h.origin.line ≠ 0 :=
    fun h hh => line_ne_zero_of_mem_hops h1 h2 hfit1 hfit2 hh
  have hnamed : ∀ h ∈ hops stage1 stage2, ∀ n ∈ h.name, n ∈ hopNames stage1 stage2 :=
    fun h hh n hn => List.mem_filterMap.mpr ⟨h, hh, hn⟩
  -- Step 2: the document is decoded into the segments of the hops
  obtain ⟨segments, hdecode, hperm, hfit, hm⟩ :=
    MapBuilder.ofDocument_run none (composeCalls stage1 stage2 fileName text)
  have hlinesFit : (MapBuilder.run none
      (composeCalls stage1 stage2 fileName text)).toDocument.LinesFit :=
    MapDocument.linesFit_of_decode hdecode hfit
  rw [composeDocument_eq_run h2 hfit2]
  refine ⟨_, hm, ?_, fun p => ?_⟩
  · rw [sourceTable_composeCalls]
    simp only [MapBuilder.files, List.map_cons, List.map_nil, lastText_composeCalls]
  · -- Step 3: the closest segment is that of the closest hop
    have hclosest : Lookup.closest? Segment.generated Segment.tieKey
        ((hops stage1 stage2).map (Hop.segment (hopNames stage1 stage2))) p =
          (Lookup.closest? Hop.generated (Hop.key (hopNames stage1 stage2))
            (hops stage1 stage2) p).map (Hop.segment (hopNames stage1 stage2)) :=
      Lookup.closest?_map (fun h hh => Hop.generated_segment (hlines h hh).1)
        (fun a ha b hb => Hop.tieKey_segment_le_iff hlength (hnamed a ha) (hnamed b hb)
          (hlines a ha).2 (hlines b hb).2) p
    rw [SourceMap.trace_eq_bind hm hdecode hlinesFit hperm.symm p, segments_composeCalls,
      MapBuilder.rooted_run, MapBuilder.names_run, sourceTable_composeCalls,
      nameTable_composeCalls, hclosest]
    cases hc : Lookup.closest? Hop.generated (Hop.key (hopNames stage1 stage2))
        (hops stage1 stage2) p with
    | none => rfl
    | some h =>
      have hh : h ∈ hops stage1 stage2 := Lookup.mem_of_closest? hc
      exact resolve_segment text hh (hlines h hh).2 hlength

/-- A document that leads from the compiled text to the source. -/
def compiledDocument : MapDocument where
  version := MapDocument.supportedVersion
  file := none
  sourceRoot := none
  sources := ["in.tsx"]
  sourcesContent := none
  names := []
  mappings := "AAAA,UAEI"

/-- A document that leads to the compiled text: two named segments at one place, and behind them one
whose line has no mapping in the compiled text. -/
def bundledDocument : MapDocument where
  version := MapDocument.supportedVersion
  file := none
  sourceRoot := none
  sources := ["mid.js"]
  sourcesContent := none
  names := ["y", "x"]
  mappings := "AAAWC,AAACD,GAIZ"

/-- The dropped segment does not hide the ones before it, and of these the name that occurs first
answers, wherever the second table has it. -/
theorem trace_composed_bundledDocument :
    ∃ stage1 stage2 m, SourceMap.ofDocument compiledDocument = .ok stage1 ∧
      SourceMap.ofDocument bundledDocument = .ok stage2 ∧
      compiledDocument.LinesFit ∧ bundledDocument.LinesFit ∧
      SourceMap.ofDocument (composeDocument stage1 stage2 "app.tsx" "text") = .ok m ∧
      m.trace ⟨1, 5⟩ = some ⟨"app.tsx", ⟨3, 4⟩, some "x"⟩ := by
  have hdecode1 : MappingText.decode compiledDocument.mappings =
      .ok [⟨0, 0, some ⟨0, 0, 0, none⟩⟩, ⟨0, 10, some ⟨0, 2, 4, none⟩⟩] := by
    decide +kernel
  have hdecode2 : MappingText.decode bundledDocument.mappings =
      .ok [⟨0, 0, some ⟨0, 0, 11, some 1⟩⟩, ⟨0, 0, some ⟨0, 0, 12, some 0⟩⟩,
        ⟨0, 3, some ⟨0, 4, 0, none⟩⟩] := by
    decide +kernel
  -- Both texts list their segments in order already
  have h1 : SourceMap.ofDocument compiledDocument = .ok ⟨none, [⟨"in.tsx", none⟩],
      [⟨⟨1, 0⟩, some ⟨"in.tsx", ⟨1, 0⟩, none⟩⟩, ⟨⟨1, 10⟩, some ⟨"in.tsx", ⟨3, 4⟩, none⟩⟩]⟩ := by
    refine SourceMap.ofDocument_eq_ok_iff.mpr ⟨_, hdecode1, ?_, ?_⟩
    · simp [Segment.InTables, SegmentOrigin.resolve?, SourceMap.rooted, compiledDocument]
    · rw [SourceMap.ordered, List.mergeSort_of_pairwise (by decide)]
      rfl
  have h2 : SourceMap.ofDocument bundledDocument = .ok ⟨none, [⟨"mid.js", none⟩],
      [⟨⟨1, 0⟩, some ⟨"mid.js", ⟨1, 11⟩, some "x"⟩⟩, ⟨⟨1, 0⟩, some ⟨"mid.js", ⟨1, 12⟩, some "y"⟩⟩,
        ⟨⟨1, 3⟩, some ⟨"mid.js", ⟨5, 0⟩, none⟩⟩]⟩ := by
    refine SourceMap.ofDocument_eq_ok_iff.mpr ⟨_, hdecode2, ?_, ?_⟩
    · simp [Segment.InTables, SegmentOrigin.resolve?, SourceMap.rooted, bundledDocument]
    · rw [SourceMap.ordered, List.mergeSort_of_pairwise (by decide)]
      rfl
  have hfit1 : compiledDocument.LinesFit :=
    MapDocument.linesFit_of_decode hdecode1 (by simp [Segment.LinesFit, UInt32.size])
  have hfit2 : bundledDocument.LinesFit :=
    MapDocument.linesFit_of_decode hdecode2 (by simp [Segment.LinesFit, UInt32.size])
  obtain ⟨m, hm, -, htrace⟩ := trace_composeDocument h1 h2 hfit1 hfit2 "app.tsx" "text"
  refine ⟨_, _, m, h1, h2, hfit1, hfit2, hm, ?_⟩
  rw [htrace]
  decide +kernel

end MapChain
