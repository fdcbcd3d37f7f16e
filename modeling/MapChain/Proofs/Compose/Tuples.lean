import MapChain.Compose.Chain
import MapChain.Proofs.Compose.Mappings

/-!
# Composing a stream and composing a document

A stream of tuples can be composed as it is, or it can be written as a document of one source, read
back and composed like any other map. Both ways keep the same tuples and say the same about them.

## Layers

- **Calls**: `call` adds a tuple to a builder, and `mapping?_call` is what is read back for it.
- **Decoding**: `ofDocument_calls` decodes the document of a stream into its tuples.
- **Statement**: `composeTuples_agree`, for as many names as 32 bits can number.
- **One name too many**: with one more the two ways differ (`not_perm_of_names_lt`), and there are
  streams with one more (`not_perm_numberedTuples`).
-/

namespace MapChain

namespace MappingTuple

/-! ## Calls -/

/-- The name of a tuple that can be traced. -/
def tracedName? (t : MappingTuple) : Option String := t.traceable?.bind fun _ => t.name

/-- The call that adds a tuple under one source: with its origin and name where it can be traced,
and without an origin otherwise. -/
def call (source : String) (t : MappingTuple) : MapBuilder.Call :=
  .add t.generated (t.traceable?.map fun o => (source, o)) t.tracedName?

/-- What a tuple says: its place, the position that it leads to and its name. -/
def entry (t : MappingTuple) : Position × Option Position × Option String :=
  (t.generated, t.origin, t.name)

/-- The mapping that a tuple is read back as. -/
def mapping (source : String) (t : MappingTuple) : Mapping :=
  ⟨t.generated, t.traceable?.map fun o => ⟨source, o, t.name⟩⟩

theorem line_ne_zero_of_traceable? {t : MappingTuple} {o : Position} (h : t.traceable? = some o) :
    o.line ≠ 0 := by
  simpa using (Option.filter_eq_some_iff.mp h).2

theorem mapping?_call (source : String) {t : MappingTuple} (hline : t.generated.line ≠ 0) :
    (t.call source).mapping? = some (t.mapping source) := by
  rw [call, MapBuilder.Call.mapping?, mapping, Position.counted_of_ne hline]
  cases ht : t.traceable? with
  | none => rfl
  | some o =>
    simp [tracedName?, ht, Position.counted_of_ne (line_ne_zero_of_traceable? ht)]

/-- A tuple is composed like its mapping. -/
theorem entryThrough?_mapping (stage1 : SourceMap) (source : String) (t : MappingTuple) :
    entryThrough? stage1 (t.mapping source) = (composeTuple? stage1 t).map entry := by
  rw [entryThrough?, follow?, mapping, composeTuple?]
  cases t.traceable? with
  | none => rfl
  | some o =>
    cases htrace : stage1.trace o <;> simp [htrace, entry]

end MappingTuple

/-! ## Decoding -/

/-- The names of a stream's document are those of the tuples that can be traced. -/
theorem nameTable_calls (source : String) (ts : List MappingTuple) :
    MapBuilder.nameTable (ts.map (MappingTuple.call source)) =
      MapBuilder.table (ts.filterMap MappingTuple.tracedName?) := by
  have huses : (ts.map (MappingTuple.call source)).filterMap MapBuilder.Call.name? =
      ts.filterMap MappingTuple.tracedName? := by
    rw [List.filterMap_map]
    apply List.filterMap_congr
    intro t _
    rw [Function.comp_apply, MappingTuple.call, MappingTuple.tracedName?]
    cases t.traceable? <;> rfl
  rw [MapBuilder.nameTable, huses]

/-- The document of a stream is decoded into the mappings of its tuples. -/
theorem ofDocument_calls {ts : List MappingTuple} (hlines : ∀ t ∈ ts, t.generated.line ≠ 0)
    (hnames : (ts.filterMap MappingTuple.tracedName?).dedup.length ≤ UInt32.size)
    (file : Option String) (source : String) :
    ∃ m, SourceMap.ofDocument
        (MapBuilder.run file (ts.map (MappingTuple.call source))).toDocument = .ok m ∧
      m.mappings.Perm (ts.map (MappingTuple.mapping source)) := by
  have hsources : (MapBuilder.sourceTable (ts.map (MappingTuple.call source))).length ≤
      UInt32.size := by
    -- All tuples are added under the same source
    have hsubset : MapBuilder.sourceTable (ts.map (MappingTuple.call source)) ⊆ [source] := by
      intro s hs
      obtain ⟨c, hc, hsource⟩ := List.mem_filterMap.mp (MapBuilder.mem_table.mp hs)
      obtain ⟨t, -, rfl⟩ := List.mem_map.mp hc
      obtain ⟨origin, horigin, rfl⟩ := Option.map_eq_some_iff.mp hsource
      obtain ⟨o, -, rfl⟩ := Option.map_eq_some_iff.mp horigin
      exact List.mem_singleton_self source
    have hle := ((MapBuilder.nodup_table _).subperm hsubset).length_le
    exact hle.trans (by simp [UInt32.size])
  have hnames' : (MapBuilder.nameTable (ts.map (MappingTuple.call source))).length ≤
      UInt32.size := by
    rw [nameTable_calls, MapBuilder.length_table]
    exact hnames
  obtain ⟨m, hm, hperm⟩ := MapBuilder.exists_mappings_perm file hsources hnames'
  refine ⟨m, hm, hperm.trans (List.Perm.of_eq ?_)⟩
  rw [List.filterMap_map, ← List.filterMap_eq_map]
  exact List.filterMap_congr fun t ht => MappingTuple.mapping?_call source (hlines t ht)

/-- A stream that is composed keeps the tuples that resolve, with their places and names. -/
theorem map_composeTuples (stage1 : SourceMap) (ts : List MappingTuple) :
    (composeTuples stage1 ts).map (fun t => (t.generated, t.name)) =
      (ts.filter fun t => (t.traceable?.bind stage1.trace).isSome).map fun t =>
        (t.generated, t.name) := by
  have hstep : ∀ t, composeTuple? stage1 t =
      (t.traceable?.bind stage1.trace).map fun o => { t with origin := some o.position } := by
    intro t
    rw [composeTuple?]
    cases t.traceable? with
    | none => rfl
    | some o => cases h : stage1.trace o <;> simp [h]
  induction ts with
  | nil => rfl
  | cons t ts ih =>
    rw [composeTuples] at ih ⊢
    cases h : t.traceable?.bind stage1.trace with
    | none => rw [List.filterMap_cons_none (by rw [hstep, h]; rfl), ih,
        List.filter_cons_of_neg (by simp [h])]
    | some o => rw [List.filterMap_cons_some (by rw [hstep, h]; rfl), List.map_cons, ih,
        List.filter_cons_of_pos (by simp [h]), List.map_cons]

/-! ## Statement -/

/-- **Both ways of composing agree.** A stream with at most `2 ^ 32` different names of tuples that
can be traced, as many as a document can number, is composed into the same entries as the document
that has its tuples. What is kept of the stream keeps its order, its places and its names. -/
theorem composeTuples_agree {d1 : MapDocument} {stage1 : SourceMap}
    (h1 : SourceMap.ofDocument d1 = .ok stage1) (hfit1 : d1.LinesFit) {ts : List MappingTuple}
    (hlines : ∀ t ∈ ts, t.generated.line ≠ 0)
    (hnames : (ts.filterMap MappingTuple.tracedName?).dedup.length ≤ 2 ^ 32)
    (file : Option String) (source fileName text : String) :
    ∃ stage2 m, SourceMap.ofDocument
        (MapBuilder.run file (ts.map (MappingTuple.call source))).toDocument = .ok stage2 ∧
      SourceMap.ofDocument (composeDocument stage1 stage2 fileName text) = .ok m ∧
      (m.mappings.map Mapping.entry).Perm ((composeTuples stage1 ts).map MappingTuple.entry) ∧
      (composeTuples stage1 ts).map (fun t => (t.generated, t.name)) =
        (ts.filter fun t => (t.traceable?.bind stage1.trace).isSome).map fun t =>
          (t.generated, t.name) := by
  obtain ⟨stage2, h2, hstage2⟩ := ofDocument_calls hlines hnames file source
  obtain ⟨m, listed, hm, hmappings, hperm, -⟩ :=
    ofDocument_composeDocument h1 h2 hfit1 (MapBuilder.linesFit_run _ _) fileName text
  refine ⟨stage2, m, h2, hm, ?_, ?_⟩
  · have hentries := entries_of_hops hmappings hperm hstage2
    rw [List.filterMap_map] at hentries
    rw [composeTuples, List.map_filterMap]
    refine hentries.trans (List.Perm.of_eq (List.filterMap_congr fun t _ => ?_))
    exact MappingTuple.entryThrough?_mapping stage1 source t
  · exact map_composeTuples stage1 ts

/-- A stream with tuples that cannot be traced or do not resolve, and two at one place. -/
def mixedTuples : List MappingTuple :=
  [⟨⟨1, 0⟩, some ⟨1, 0⟩, some "a"⟩, ⟨⟨1, 4⟩, none, some "b"⟩, ⟨⟨1, 4⟩, some ⟨0, 3⟩, none⟩,
    ⟨⟨2, 0⟩, some ⟨1, 12⟩, none⟩, ⟨⟨2, 0⟩, some ⟨7, 0⟩, some "c"⟩, ⟨⟨1, 0⟩, some ⟨1, 2⟩, none⟩]

/-- Three of the tuples resolve, in the document as in the stream. -/
theorem entries_mixedTuples :
    ∃ stage2 m, SourceMap.ofDocument turnedDocument = .ok turnedMap ∧ turnedDocument.LinesFit ∧
      (∀ t ∈ mixedTuples, t.generated.line ≠ 0) ∧
      (mixedTuples.filterMap MappingTuple.tracedName?).dedup.length ≤ 2 ^ 32 ∧
      SourceMap.ofDocument
        (MapBuilder.run none (mixedTuples.map (MappingTuple.call "mid.js"))).toDocument =
          .ok stage2 ∧
      SourceMap.ofDocument (composeDocument turnedMap stage2 "app.tsx" "text") = .ok m ∧
      (m.mappings.map Mapping.entry).Perm [(⟨1, 0⟩, some ⟨3, 4⟩, some "a"),
        (⟨2, 0⟩, some ⟨1, 0⟩, none), (⟨1, 0⟩, some ⟨3, 4⟩, none)] := by
  obtain ⟨h1, hfit1⟩ := turnedDocument_decoded
  have hlines : ∀ t ∈ mixedTuples, t.generated.line ≠ 0 := by decide
  have hnames : (mixedTuples.filterMap MappingTuple.tracedName?).dedup.length ≤ 2 ^ 32 := by
    decide
  obtain ⟨stage2, m, h2, hm, hentries, -⟩ :=
    composeTuples_agree h1 hfit1 hlines hnames none "mid.js" "app.tsx" "text"
  refine ⟨stage2, m, h1, hfit1, hlines, hnames, h2, hm, hentries.trans (List.Perm.of_eq ?_)⟩
  decide +kernel

/-! ## One name too many -/

/-- The names of a composed document have numbers in the document of the second stage. -/
theorem exists_number_of_name {d1 d2 : MapDocument} {stage1 stage2 m : SourceMap}
    (h1 : SourceMap.ofDocument d1 = .ok stage1) (h2 : SourceMap.ofDocument d2 = .ok stage2)
    (hfit1 : d1.LinesFit) (hfit2 : d2.LinesFit) {fileName text : String}
    (hm : SourceMap.ofDocument (composeDocument stage1 stage2 fileName text) = .ok m)
    {generated : Position} {origin : Option Position} {n : String}
    (h : (generated, origin, some n) ∈ m.mappings.map Mapping.entry) :
    ∃ i : UInt32, d2.names[i.toNat]? = some n := by
  obtain ⟨m', listed, hm', hmappings, hperm, -⟩ :=
    ofDocument_composeDocument h1 h2 hfit1 hfit2 fileName text
  obtain rfl := Except.ok.inj (hm.symm.trans hm')
  have hentries := entries_of_hops hmappings hperm (List.Perm.refl stage2.mappings)
  obtain ⟨x, hx, hxentry⟩ := List.mem_filterMap.mp (hentries.mem_iff.mp h)
  obtain ⟨a, ha, heq⟩ := Option.map_eq_some_iff.mp hxentry
  obtain ⟨middle, hmiddle, hfollow⟩ := Option.bind_eq_some_iff.mp ha
  obtain ⟨r, -, rfl⟩ := Option.map_eq_some_iff.mp hfollow
  have hname : middle.name = some n := by simpa using (Prod.mk.inj (Prod.mk.inj heq).2).2
  exact ((SourceMap.mapping_of_mem h2 hfit2 hx).2 middle hmiddle).2 n hname

/-- A stream whose tuples resolve keeps all of their names. -/
theorem exists_entry_of_name {stage1 : SourceMap} {ts : List MappingTuple}
    (hresolve : ∀ t ∈ ts, ∀ o, t.traceable? = some o → (stage1.trace o).isSome) {n : String}
    (hn : n ∈ ts.filterMap MappingTuple.tracedName?) :
    ∃ generated origin, (generated, origin, some n) ∈
      (composeTuples stage1 ts).map MappingTuple.entry := by
  obtain ⟨t, ht, htn⟩ := List.mem_filterMap.mp hn
  obtain ⟨o, ho, hname⟩ := Option.bind_eq_some_iff.mp htn
  obtain ⟨r, hr⟩ := Option.isSome_iff_exists.mp (hresolve t ht o ho)
  refine ⟨t.generated, some r.position,
    List.mem_map.mpr ⟨{ t with origin := some r.position }, ?_, ?_⟩⟩
  · exact List.mem_filterMap.mpr ⟨t, ht, by simp [composeTuple?, ho, hr]⟩
  · rw [MappingTuple.entry, hname]

/-- The bound on the names is sharp. With one name more, the document has a name whose number does
not fit 32 bits, so no mapping has it, while a stream keeps the names of all tuples that resolve. -/
theorem not_perm_of_names_lt {d1 : MapDocument} {stage1 stage2 m : SourceMap}
    (h1 : SourceMap.ofDocument d1 = .ok stage1) (hfit1 : d1.LinesFit) {ts : List MappingTuple}
    (hresolve : ∀ t ∈ ts, ∀ o, t.traceable? = some o → (stage1.trace o).isSome)
    (hnames : 2 ^ 32 < (ts.filterMap MappingTuple.tracedName?).dedup.length)
    {file : Option String} {source fileName text : String}
    (h2 : SourceMap.ofDocument
      (MapBuilder.run file (ts.map (MappingTuple.call source))).toDocument = .ok stage2)
    (hm : SourceMap.ofDocument (composeDocument stage1 stage2 fileName text) = .ok m) :
    ¬ (m.mappings.map Mapping.entry).Perm ((composeTuples stage1 ts).map MappingTuple.entry) := by
  intro hentries
  have hlength : 2 ^ 32 <
      (MapBuilder.nameTable (ts.map (MappingTuple.call source))).length := by
    rw [nameTable_calls, MapBuilder.length_table]
    exact hnames
  -- The first name without a number is kept in the stream
  obtain ⟨n, hn⟩ : ∃ n, (MapBuilder.nameTable (ts.map (MappingTuple.call source)))[2 ^ 32]? =
      some n := ⟨_, List.getElem?_eq_getElem hlength⟩
  have hnmem := List.mem_of_getElem? hn
  rw [nameTable_calls, MapBuilder.mem_table] at hnmem
  obtain ⟨generated, origin, hkept⟩ := exists_entry_of_name hresolve hnmem
  -- The names of a document differ, so the number of this one would be too large
  obtain ⟨i, hi⟩ := exists_number_of_name h1 h2 hfit1 (MapBuilder.linesFit_run _ _) hm
    (hentries.mem_iff.mpr hkept)
  rw [MapBuilder.names_run] at hi
  have hlarge : i.toNat = 2 ^ 32 := by
    obtain ⟨hlt, hget⟩ := List.getElem?_eq_some_iff.mp hi
    obtain ⟨hlt', hget'⟩ := List.getElem?_eq_some_iff.mp hn
    exact (MapBuilder.nodup_table _).getElem_inj_iff.mp (hget.trans hget'.symm)
  have hlt := i.toNat_lt
  rw [hlarge] at hlt
  exact absurd hlt (Nat.lt_irrefl _)

/-- A stream with a number of different names, all of them at one place. -/
def numberedTuples (n : Nat) : List MappingTuple :=
  (List.range n).map fun i => ⟨⟨1, 0⟩, some ⟨1, 0⟩, some i.repr⟩

theorem eq_of_mem_numberedTuples {n : Nat} {t : MappingTuple} (h : t ∈ numberedTuples n) :
    t.generated = ⟨1, 0⟩ ∧ t.traceable? = some ⟨1, 0⟩ := by
  obtain ⟨i, -, rfl⟩ := List.mem_map.mp h
  exact ⟨rfl, rfl⟩

theorem repr_injective : Function.Injective Nat.repr := by
  intro a b h
  have hdigits : Nat.toDigits 10 a = Nat.toDigits 10 b := String.ofList_injective h
  have hvalue := congrArg (Nat.ofDigitChars 10 · 0) hdigits
  simpa only [Nat.ofDigitChars_ten_toDigits] using hvalue

/-- Different numbers are written differently, so no name is left out. -/
theorem length_dedup_numberedTuples (n : Nat) :
    ((numberedTuples n).filterMap MappingTuple.tracedName?).dedup.length = n := by
  have hnames : (numberedTuples n).filterMap MappingTuple.tracedName? =
      (List.range n).map Nat.repr := by
    rw [numberedTuples, List.filterMap_map, ← List.filterMap_eq_map]
    rfl
  have hnodup : ((List.range n).map Nat.repr).Nodup :=
    List.nodup_range.map repr_injective
  rw [hnames, hnodup.dedup, List.length_map, List.length_range]

/-- **The two ways differ for one name too many.** Both documents of such a stream are decoded, and
the entries are not those of the composed stream. -/
theorem not_perm_numberedTuples :
    ∃ stage2 m, SourceMap.ofDocument turnedDocument = .ok turnedMap ∧ turnedDocument.LinesFit ∧
      (∀ t ∈ numberedTuples (2 ^ 32 + 1), t.generated.line ≠ 0) ∧
      SourceMap.ofDocument (MapBuilder.run none
        ((numberedTuples (2 ^ 32 + 1)).map (MappingTuple.call "mid.js"))).toDocument =
          .ok stage2 ∧
      SourceMap.ofDocument (composeDocument turnedMap stage2 "app.tsx" "text") = .ok m ∧
      ¬ (m.mappings.map Mapping.entry).Perm
        ((composeTuples turnedMap (numberedTuples (2 ^ 32 + 1))).map MappingTuple.entry) := by
  obtain ⟨h1, hfit1⟩ := turnedDocument_decoded
  have hlines : ∀ t ∈ numberedTuples (2 ^ 32 + 1), t.generated.line ≠ 0 := by
    intro t ht
    rw [(eq_of_mem_numberedTuples ht).1]
    decide
  have hresolve : ∀ t ∈ numberedTuples (2 ^ 32 + 1), ∀ o, t.traceable? = some o →
      (turnedMap.trace o).isSome := by
    intro t ht o ho
    obtain rfl := Option.some.inj ((eq_of_mem_numberedTuples ht).2.symm.trans ho)
    decide
  have hnames : 2 ^ 32 <
      ((numberedTuples (2 ^ 32 + 1)).filterMap MappingTuple.tracedName?).dedup.length := by
    rw [length_dedup_numberedTuples]
    exact Nat.lt_succ_self _
  obtain ⟨segments, -, -, -, h2⟩ := MapBuilder.ofDocument_run none
    ((numberedTuples (2 ^ 32 + 1)).map (MappingTuple.call "mid.js"))
  obtain ⟨m, -, hm, -⟩ := ofDocument_composeDocument h1 h2 hfit1 (MapBuilder.linesFit_run _ _)
    "app.tsx" "text"
  exact ⟨_, m, h1, hfit1, hlines, h2, hm, not_perm_of_names_lt h1 hfit1 hresolve hnames h2 hm⟩

end MapChain
