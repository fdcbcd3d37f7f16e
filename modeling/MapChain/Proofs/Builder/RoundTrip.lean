import MapChain.Proofs.Builder.Tables
import MapChain.Proofs.Lookup.Decoded
import MapChain.Proofs.MappingText.RoundTrip

/-!
# Reading back what was built

The document of a builder is decoded into what was added and set, however the calls were ordered.

## Layers

- **Segments**: `inTables_segment` resolves the segment of an added mapping in the final tables, and
  `mapping_segment` says that it gives back what was added.
- **Documents**: `ofDocument_run` decodes the document of any sequence of calls.
- **Statement**: `ofDocument_toDocument`.
-/

namespace MapChain

/-- A position as documents have it, where the first line is one. -/
def Position.counted (p : Position) : Position := if p.line = 0 then { p with line := 1 } else p

/-- The line before another one is kept in 32 bits. -/
theorem toNat_line_sub_one (line : UInt32) :
    (UInt32.ofNat (line.toNat - 1)).toNat = line.toNat - 1 := by
  have hlt : line.toNat < UInt32.size := line.toNat_lt
  exact UInt32.toNat_ofNat_of_lt' (by omega)

/-- Counting a line from zero and then from one keeps it, apart from line zero. -/
theorem Position.counted_eq (p : Position) :
    p.counted = ⟨UInt32.ofNat (p.line.toNat - 1) + 1, p.column⟩ := by
  obtain ⟨line, column⟩ := p
  by_cases hline : line = 0
  · -- Zero cannot be lowered, so it comes back as one
    subst hline
    rfl
  · have hpos : line.toNat ≠ 0 := fun h => hline (UInt32.toNat_inj.mp h)
    have hlt : line.toNat < UInt32.size := line.toNat_lt
    have hsucc : UInt32.ofNat (line.toNat - 1) + 1 = line := by
      rw [← UInt32.toNat_inj, toNat_line_add_one, toNat_line_sub_one]
      · omega
      · rw [toNat_line_sub_one]
        omega
    simp [Position.counted, hline, hsucc]

theorem Position.counted_of_ne {p : Position} (h : p.line ≠ 0) : p.counted = p := if_neg h

namespace MapBuilder

/-! ## Segments -/

theorem segment_line (m : PendingMapping) :
    (segment m).line.toNat = m.generated.line.toNat - 1 :=
  toNat_line_sub_one m.generated.line

/-- The lines of a written segment can be counted from one. -/
theorem segment_linesFit (m : PendingMapping) : (segment m).LinesFit := by
  have hfit : ∀ line : UInt32, (UInt32.ofNat (line.toNat - 1)).toNat + 1 < UInt32.size := by
    intro line
    have hlt : line.toNat < UInt32.size := line.toNat_lt
    rw [toNat_line_sub_one]
    simp only [UInt32.size] at hlt ⊢
    omega
  refine ⟨hfit _, fun o ho => ?_⟩
  obtain ⟨⟨i, position⟩, -, rfl⟩ := Option.mem_map.mp ho
  exact hfit _

theorem generated_segment (m : PendingMapping) : (segment m).generated = m.generated.counted :=
  (Position.counted_eq m.generated).symm

/-- The mapping that a call adds, as it is read back. -/
def Call.mapping? : Call → Option Mapping
  | add generated origin name =>
    some ⟨generated.counted, origin.map fun (source, position) => ⟨source, position.counted, name⟩⟩
  | setContent .. => none

/-- A place in a table of at most `2 ^ 32` entries is kept in 32 bits. -/
theorem toNat_idxOf_table {uses : List String} {s : String} (hs : s ∈ uses)
    (hlength : (table uses).length ≤ UInt32.size) :
    (UInt32.ofNat ((table uses).idxOf s)).toNat = (table uses).idxOf s :=
  UInt32.toNat_ofNat_of_lt' (Nat.lt_of_lt_of_le (idxOf_table_lt hs) hlength)

theorem table_getElem?_ofNat {uses : List String} {s : String} (hs : s ∈ uses)
    (hlength : (table uses).length ≤ UInt32.size) :
    (table uses)[(UInt32.ofNat ((table uses).idxOf s)).toNat]? = some s := by
  rw [toNat_idxOf_table hs hlength, table_getElem?_idxOf hs]

/-- What 32 bits keep of a place in a table is a place in it. -/
theorem exists_table_getElem? {uses : List String} {s : String} (hs : s ∈ uses) :
    ∃ x, (table uses)[(UInt32.ofNat ((table uses).idxOf s)).toNat]? = some x :=
  ⟨_, List.getElem?_eq_getElem (Nat.lt_of_le_of_lt (Nat.mod_le _ _) (idxOf_table_lt hs))⟩

/-- **The segment of an added mapping** has its source and name in the final tables, also where the
place there is too large for 32 bits: what is left of it is the place of another entry. -/
theorem inTables_segment {calls : List Call} {c : Call} {m : PendingMapping} (hc : c ∈ calls)
    (hm : c.pending? (sourceTable calls) (nameTable calls) = some m) :
    (segment m).InTables (sourceTable calls) (nameTable calls) := by
  cases c with
  | setContent => cases hm
  | add generated origin name =>
    cases origin with
    | none =>
      cases hm
      exact fun o ho => by simp [segment] at ho
    | some origin =>
      obtain ⟨source, position⟩ := origin
      cases hm
      have hsource : source ∈ calls.filterMap Call.source? := List.mem_filterMap.mpr ⟨_, hc, rfl⟩
      obtain ⟨x, hx⟩ := exists_table_getElem? hsource
      rintro o ⟨⟩
      cases name with
      | none =>
        simp only [SegmentOrigin.resolve?, sourceTable, hx]
        rfl
      | some name =>
        have hname : name ∈ calls.filterMap Call.name? := List.mem_filterMap.mpr ⟨_, hc, rfl⟩
        obtain ⟨y, hy⟩ := exists_table_getElem? hname
        simp only [Option.map_some, SegmentOrigin.resolve?, sourceTable, nameTable, hx, hy]
        rfl

/-- In tables whose places 32 bits have, the segment of an added mapping stands for what was
added. -/
theorem mapping_segment {calls : List Call} {c : Call} {m : PendingMapping} (hc : c ∈ calls)
    (hsources : (sourceTable calls).length ≤ UInt32.size)
    (hnames : (nameTable calls).length ≤ UInt32.size)
    (hm : c.pending? (sourceTable calls) (nameTable calls) = some m) :
    c.mapping? = some ((segment m).mapping (sourceTable calls) (nameTable calls)) := by
  cases c with
  | setContent => cases hm
  | add generated origin name =>
    cases origin with
    | none =>
      cases hm
      rw [Call.mapping?, Segment.mapping, generated_segment]
      rfl
    | some origin =>
      obtain ⟨source, position⟩ := origin
      cases hm
      have hsource := table_getElem?_ofNat (List.mem_filterMap.mpr ⟨_, hc, rfl⟩) hsources
      -- Both places were entered by this very call, or before it
      have hresolve : ∀ o ∈ (segment ⟨generated, some ((sourceTable calls).idxOf source, position),
          name.map (nameTable calls).idxOf⟩).origin,
            o.resolve? (sourceTable calls) (nameTable calls) =
              some ⟨source, position.counted, name⟩ := by
        rintro o ⟨⟩
        rw [Position.counted_eq]
        cases name with
        | none =>
          simp only [SegmentOrigin.resolve?, sourceTable, hsource]
          rfl
        | some name =>
          have hname := table_getElem?_ofNat (List.mem_filterMap.mpr ⟨_, hc, rfl⟩) hnames
          simp only [SegmentOrigin.resolve?, sourceTable, nameTable, Option.map_some, hsource, hname]
          rfl
      rw [Call.mapping?, Segment.mapping, generated_segment]
      simp only [segment, Option.map_some, Option.bind_some] at hresolve ⊢
      rw [hresolve _ rfl]

/-! ## Documents -/

/-- Pending mappings in the order of their generated positions have lines that do not go back. -/
theorem pairwise_line_segments (pending : List PendingMapping) :
    ((pending.mergeSort fun a b => a.generated ≤ b.generated).map segment).Pairwise
      fun a b => a.line.toNat ≤ b.line.toNat := by
  have hsorted : (pending.mergeSort fun a b => a.generated ≤ b.generated).Pairwise
      fun a b => decide (a.generated ≤ b.generated) = true := by
    apply List.pairwise_mergeSort
    · intro a b c hab hbc
      exact decide_eq_true
        (Position.le_trans (of_decide_eq_true hab) (of_decide_eq_true hbc))
    · intro a b
      simpa using Position.le_total a.generated b.generated
  refine List.pairwise_map.mpr (hsorted.imp fun {a b} hab => ?_)
  rw [segment_line, segment_line]
  have hle := Position.le_iff.mp (of_decide_eq_true hab)
  rcases hle with hlt | ⟨heq, -⟩
  · omega
  · rw [heq]

/-- The texts of a document are those of its builder, also when there are none. -/
theorem sourceFiles_toDocument (b : MapBuilder) :
    SourceMap.sourceFiles (b.sources.map (·.name)) (b.toDocument.sourcesContent.getD []) =
      b.sources := by
  apply List.ext_getElem?
  intro i
  rw [SourceMap.sourceFiles, List.getElem?_mapIdx, List.getElem?_map]
  cases hi : b.sources[i]? with
  | none => rfl
  | some f =>
    rw [toDocument]
    by_cases hany : b.sources.any (·.content.isSome)
    · simp [hany, hi]
    · -- The table of texts is left out, and nothing is missing
      have hnone : f.content = none := by
        have hmem := List.mem_of_getElem? hi
        simpa using List.any_eq_false.mp (Bool.eq_false_iff.mpr hany) f hmem
      simp [hany, ← hnone]

theorem content?_files {entries : List String} {text : String → Option String} {s : String}
    (h : s ∉ entries → text s = none) : SourceFile.content? (files entries text) s = text s := by
  induction entries with
  | nil => exact (h List.not_mem_nil).symm
  | cons x entries ih =>
    rw [files, List.map_cons, SourceFile.content?]
    by_cases hx : x = s
    · rw [List.find?_cons_of_pos (by simpa using hx), Option.bind_some, hx]
    · rw [List.find?_cons_of_neg (by simpa using hx)]
      exact ih fun hs => h (List.mem_cons.not.mpr (not_or.mpr ⟨Ne.symm hx, hs⟩))

theorem rooted_run (file : Option String) (calls : List Call) :
    SourceMap.rooted (run file calls).toDocument.sourceRoot
      (run file calls).toDocument.sources = sourceTable calls := sources_run file calls

/-- The text of a document is that of the pending mappings in the order of their positions. -/
theorem decode_run (file : Option String) (calls : List Call) :
    MappingText.decode (run file calls).toDocument.mappings = .ok
      (((pendingMappings calls).mergeSort fun a b => a.generated ≤ b.generated).map segment) := by
  rw [toDocument, show (run file calls).pending.toList = pendingMappings calls by rw [run_eq]]
  exact MappingText.decode_encode (pairwise_line_segments (pendingMappings calls))

theorem linesFit_run (file : Option String) (calls : List Call) :
    (run file calls).toDocument.LinesFit := by
  apply MapDocument.linesFit_of_decode (decode_run file calls)
  intro s hs
  obtain ⟨m, -, rfl⟩ := List.mem_map.mp hs
  exact segment_linesFit m

/-- **The document of a builder** is decoded, whatever the calls. Its segments are those of the
added mappings in some order, their lines fit, and they are resolved in the tables. -/
theorem ofDocument_run (file : Option String) (calls : List Call) :
    ∃ segments, MappingText.decode (run file calls).toDocument.mappings = .ok segments ∧
      segments.Perm ((pendingMappings calls).map segment) ∧ (∀ s ∈ segments, s.LinesFit) ∧
      SourceMap.ofDocument (run file calls).toDocument = .ok {
        file
        sources := files (sourceTable calls) (lastText calls)
        mappings := (SourceMap.ordered segments).map
          (Segment.mapping (sourceTable calls) (nameTable calls)) } := by
  -- The members of the document
  have hfile : (run file calls).toDocument.file = file := by
    rw [run_eq]
    rfl
  have hfiles : SourceMap.sourceFiles (sourceTable calls)
      ((run file calls).toDocument.sourcesContent.getD []) =
        files (sourceTable calls) (lastText calls) := by
    have h := sourceFiles_toDocument (run file calls)
    rwa [show (run file calls).sources = files (sourceTable calls) (lastText calls) by rw [run_eq],
      map_name_files] at h
  have hdecode := decode_run file calls
  generalize hsegments : ((pendingMappings calls).mergeSort fun a b =>
    a.generated ≤ b.generated).map segment = segments at hdecode
  have hperm : segments.Perm ((pendingMappings calls).map segment) :=
    hsegments ▸ (List.mergeSort_perm _ _).map segment
  have htables : ∀ s ∈ segments, s.InTables (sourceTable calls) (nameTable calls) := by
    intro s hs
    obtain ⟨m, hm, rfl⟩ := List.mem_map.mp (hperm.mem_iff.mp hs)
    obtain ⟨c, hc, hcm⟩ := List.mem_filterMap.mp hm
    exact inTables_segment hc hcm
  refine ⟨segments, hdecode, hperm, linesFit_run file calls segments hdecode,
    SourceMap.ofDocument_eq_ok_iff.mpr ⟨segments, hdecode, ?_, ?_⟩⟩
  · rw [rooted_run, names_run]
    exact htables
  · rw [rooted_run, names_run, hfiles, hfile]

theorem filterMap_mapping? {calls : List Call}
    (hsources : (sourceTable calls).length ≤ UInt32.size)
    (hnames : (nameTable calls).length ≤ UInt32.size) :
    ((pendingMappings calls).map segment).map
        (Segment.mapping (sourceTable calls) (nameTable calls)) =
      calls.filterMap Call.mapping? := by
  rw [pendingMappings, List.map_filterMap, List.map_filterMap]
  apply List.filterMap_congr
  intro c hc
  cases hm : c.pending? (sourceTable calls) (nameTable calls) with
  | some m => exact (mapping_segment hc hsources hnames hm).symm
  | none =>
    cases c with
    | setContent => rfl
    | add generated origin name => cases origin <;> cases hm

/-- The decoded mappings of a builder are those that were added, in some order. -/
theorem exists_mappings_perm (file : Option String) {calls : List Call}
    (hsources : (sourceTable calls).length ≤ UInt32.size)
    (hnames : (nameTable calls).length ≤ UInt32.size) :
    ∃ m, SourceMap.ofDocument (run file calls).toDocument = .ok m ∧
      m.mappings.Perm (calls.filterMap Call.mapping?) := by
  obtain ⟨segments, -, hperm, -, hm⟩ := ofDocument_run file calls
  refine ⟨_, hm, ?_⟩
  rw [← filterMap_mapping? hsources hnames]
  exact ((List.mergeSort_perm _ _).trans hperm).map _

/-- **Reading back what was built**: after any calls with fewer than `2 ^ 32` different sources and
names, the document is decoded. Its mappings are those that were added, by generated position, and
each source has the last text that was set for it. -/
theorem ofDocument_toDocument (file : Option String) (calls : List Call)
    (hsources : (calls.filterMap Call.source?).dedup.length < 2 ^ 32)
    (hnames : (calls.filterMap Call.name?).dedup.length < 2 ^ 32) :
    ∃ m, SourceMap.ofDocument (run file calls).toDocument = .ok m ∧ m.file = file ∧
      (m.mappings.Pairwise fun a b => a.generated ≤ b.generated) ∧
      m.mappings.Perm (calls.filterMap Call.mapping?) ∧
      ∀ s, m.content? s = lastText calls s := by
  have hsources' : (sourceTable calls).length ≤ UInt32.size := by
    rw [sourceTable, length_table]
    exact hsources.le
  have hnames' : (nameTable calls).length ≤ UInt32.size := by
    rw [nameTable, length_table]
    exact hnames.le
  obtain ⟨segments, -, hperm, -, hm⟩ := ofDocument_run file calls
  refine ⟨_, hm, rfl, ?_, ?_, fun s => content?_files lastText_of_notMem⟩
  · exact List.pairwise_map.mpr (SourceMap.pairwise_generated_ordered segments)
  · rw [← filterMap_mapping? hsources' hnames']
    exact ((List.mergeSort_perm _ _).trans hperm).map _

/-- Calls out of order, with lines zero, a name without an origin and a text that is set twice. -/
def scrambledCalls : List Call :=
  [.add ⟨2, 0⟩ (some ("b.ts", ⟨0, 3⟩)) (some "n"), .setContent "a.ts" "old",
    .add ⟨0, 4⟩ none (some "ignored"), .add ⟨1, 2⟩ (some ("a.ts", ⟨7, 0⟩)) none,
    .setContent "a.ts" "new"]

/-- Lines zero are read back as lines one, and the last text counts. -/
theorem ofDocument_scrambledCalls :
    ∃ m, SourceMap.ofDocument (run (some "out.js") scrambledCalls).toDocument = .ok m ∧
      (m.mappings.Pairwise fun a b => a.generated ≤ b.generated) ∧
      m.mappings.Perm [⟨⟨2, 0⟩, some ⟨"b.ts", ⟨1, 3⟩, some "n"⟩⟩, ⟨⟨1, 4⟩, none⟩,
        ⟨⟨1, 2⟩, some ⟨"a.ts", ⟨7, 0⟩, none⟩⟩] ∧
      m.content? "a.ts" = some "new" := by
  obtain ⟨m, hm, -, hsorted, hperm, htexts⟩ := ofDocument_toDocument (some "out.js") scrambledCalls
    (by decide) (by decide)
  refine ⟨m, hm, hsorted, ?_, ?_⟩
  · exact hperm
  · rw [htexts]
    decide

end MapBuilder

end MapChain
