import Mathlib.Order.WithBot
import MapChain.Proofs.Except
import MapChain.Proofs.Lookup.Closest
import MapChain.SourceMap.Lookup

/-!
# Decoded documents

What decoding a document makes of its segments: each of them resolved in the tables, sorted by
generated position and then by origin and name. Looking up a position in the result is looking for
the closest segment, whatever the order in which the segments stand in the text.

## Layers

- **Keys**: `Segment.tieKey` orders segments at one place; the sort key compares places first
  (`generated_le_of_keyLe`) and then this key (`keyLe_sortKey_iff`).
- **Tables**: `resolveAll_eq_ok_iff` and `ofDocument_eq_ok_iff` say what decoding succeeds with.
- **Lines**: no mapping or answer of a decoded map is on line zero (`mapping_of_mem`).
- **Lookup**: `sortedBy_ordered` puts the decoded list in order, and `trace_eq_bind` answers a
  lookup from the closest segment.
- **Statement**: `trace_eq_of_closest`.
-/

namespace MapChain

/-! ## Lines -/

namespace Segment

/-- The lines of a segment can be counted from one in 32 bits. -/
def LinesFit (s : Segment) : Prop :=
  s.line.toNat + 1 < UInt32.size ∧ ∀ o ∈ s.origin, o.line.toNat + 1 < UInt32.size

instance (s : Segment) : Decidable s.LinesFit :=
  inferInstanceAs (Decidable (_ ∧ ∀ o ∈ s.origin, _))

end Segment

/-- The lines of all segments of a document can be counted from one in 32 bits. -/
def MapDocument.LinesFit (d : MapDocument) : Prop :=
  ∀ segments, MappingText.decode d.mappings = .ok segments → ∀ s ∈ segments, s.LinesFit

theorem MapDocument.linesFit_of_decode {d : MapDocument} {segments : List Segment}
    (hdecode : MappingText.decode d.mappings = .ok segments) (h : ∀ s ∈ segments, s.LinesFit) :
    d.LinesFit := by
  intro segments' hdecode'
  rw [hdecode] at hdecode'
  obtain rfl := Except.ok.inj hdecode'
  exact h

theorem toNat_line_add_one {line : UInt32} (h : line.toNat + 1 < UInt32.size) :
    (line + 1).toNat = line.toNat + 1 := by
  rw [UInt32.toNat_add]
  exact Nat.mod_eq_of_lt h

theorem line_add_one_ne_zero {line : UInt32} (h : line.toNat + 1 < UInt32.size) :
    line + 1 ≠ 0 := by
  intro hzero
  have hlift := congrArg UInt32.toNat hzero
  rw [toNat_line_add_one h] at hlift
  exact absurd hlift (Nat.succ_ne_zero _)

theorem lt_of_line_add_one_ne_zero {line : UInt32} (h : line + 1 ≠ 0) :
    line.toNat + 1 < UInt32.size := by
  by_contra hle
  apply h
  have hlt : line.toNat < UInt32.size := line.toNat_lt
  have hsum : line.toNat + 1 = UInt32.size := by omega
  rw [← UInt32.toNat_inj, UInt32.toNat_add]
  show (line.toNat + 1) % UInt32.size = 0
  rw [hsum, Nat.mod_self]

namespace Segment

/-! ## Keys -/

/-- Where an origin lies among those of one map; to have none comes first. -/
def originKey : Option SegmentOrigin → WithBot (ℕ ×ₗ ℕ ×ₗ ℕ)
  | none => ⊥
  | some o => WithBot.some (toLex (o.source.toNat, toLex (o.line.toNat, o.column.toNat)))

/-- Where a name lies in its table; to have none comes first. -/
def nameKey : Option SegmentOrigin → WithBot ℕ
  | none => ⊥
  | some o => match o.name with
    | none => ⊥
    | some name => WithBot.some name.toNat

/-- Orders segments at one generated position: by origin, then by name. -/
def tieKey (s : Segment) : WithBot (ℕ ×ₗ ℕ ×ₗ ℕ) ×ₗ WithBot ℕ :=
  toLex (originKey s.origin, nameKey s.origin)

theorem eq_of_tieKey_eq {a b : Segment} (hline : a.line = b.line) (hcolumn : a.column = b.column)
    (hkey : a.tieKey = b.tieKey) : a = b := by
  obtain ⟨line, column, origin⟩ := a
  obtain ⟨line', column', origin'⟩ := b
  have hkeys := Prod.mk.inj (toLex.injective hkey)
  have horigin : origin = origin' := by
    rcases origin with _ | ⟨source, oline, ocolumn, name⟩ <;>
      rcases origin' with _ | ⟨source', oline', ocolumn', name'⟩ <;>
      simp_all [originKey, nameKey, UInt32.toNat_inj]
    rcases name with _ | name <;> rcases name' with _ | name' <;>
      simp_all [UInt32.toNat_inj]
  simp_all

theorem generated_eq_iff {a b : Segment} :
    a.generated = b.generated ↔ a.line = b.line ∧ a.column = b.column := by
  simp [generated]

/-- Segments in the order of their sort keys are in the order of places, whatever their lines. -/
theorem generated_le_of_keyLe {a b : Segment} (h : keyLe a.sortKey b.sortKey = true) :
    a.generated ≤ b.generated := by
  simp only [sortKey, keyLe, Bool.or_eq_true, Bool.and_eq_true, decide_eq_true_eq, beq_iff_eq,
    UInt32.toNat_inj] at h
  rw [Position.le_iff]
  -- The keys differ in the line, in the column, or only behind them
  rcases h with hline | ⟨hline, hcolumn | ⟨hcolumn, -⟩⟩
  · exact .inl hline
  · exact .inr ⟨hline, hcolumn.le⟩
  · exact .inr ⟨hline, (congrArg UInt32.toNat hcolumn).le⟩

/-- At one place the sort key compares the ties. -/
theorem keyLe_sortKey_iff {a b : Segment} (ha : a.LinesFit) (hb : b.LinesFit)
    (hplace : a.generated = b.generated) :
    keyLe a.sortKey b.sortKey = true ↔ a.tieKey ≤ b.tieKey := by
  simp only [sortKey, hplace, keyLe, Nat.lt_irrefl, beq_self_eq_true, decide_false, Bool.false_or,
    Bool.true_and, tieKey, Prod.Lex.toLex_le_toLex]
  obtain ⟨line, column, origin⟩ := a
  obtain ⟨line', column', origin'⟩ := b
  cases origin with
  | none => cases origin' <;> simp [keyLe, originKey, nameKey]
  | some o =>
    cases origin' with
    | none => simp [keyLe, originKey]
    | some o' =>
      have hline := toNat_line_add_one (ha.2 o rfl)
      have hline' := toNat_line_add_one (hb.2 o' rfl)
      obtain ⟨source, line, column, name⟩ := o
      obtain ⟨source', line', column', name'⟩ := o'
      -- Both sides now compare the same numbers, one nested and one level by level
      cases name <;> cases name' <;>
        simp [keyLe, originKey, nameKey, Prod.Lex.toLex_lt_toLex, hline, hline'] <;> omega

theorem eq_of_generated_eq {a b : Segment} (hplace : a.generated = b.generated)
    (hkey : a.tieKey = b.tieKey) : a = b := by
  obtain ⟨hline, hcolumn⟩ := generated_eq_iff.mp hplace
  exact eq_of_tieKey_eq hline hcolumn hkey

end Segment

/-! ## Tables -/

/-- What an origin stands for, where the tables have its source and its name. -/
def SegmentOrigin.resolve? (sources names : List String) (o : SegmentOrigin) : Option Origin := do
  let source ← sources[o.source.toNat]?
  match o.name with
  | none => return ⟨source, ⟨o.line + 1, o.column⟩, none⟩
  | some i => return ⟨source, ⟨o.line + 1, o.column⟩, some (← names[i.toNat]?)⟩

/-- A resolved origin has its line counted from one, and its name from the table. -/
theorem SegmentOrigin.eq_of_resolve? {sources names : List String} {o : SegmentOrigin} {r : Origin}
    (h : o.resolve? sources names = some r) :
    r.position = ⟨o.line + 1, o.column⟩ ∧
      ∀ n ∈ r.name, ∃ i : UInt32, names[i.toNat]? = some n := by
  obtain ⟨i, line, column, name⟩ := o
  cases hsource : sources[i.toNat]? with
  | none => simp [SegmentOrigin.resolve?, hsource] at h
  | some source =>
    cases name with
    | none =>
      simp only [SegmentOrigin.resolve?, hsource, Option.bind_eq_bind, Option.bind_some] at h
      cases h
      exact ⟨rfl, fun n hn => by cases hn⟩
    | some j =>
      cases hname : names[j.toNat]? with
      | none => simp [SegmentOrigin.resolve?, hsource, hname] at h
      | some name =>
        simp only [SegmentOrigin.resolve?, hsource, hname, Option.bind_eq_bind,
          Option.bind_some] at h
        cases h
        exact ⟨rfl, fun n hn => ⟨j, by cases hn; exact hname⟩⟩

namespace Segment

/-- The mapping that a segment stands for. -/
def mapping (sources names : List String) (s : Segment) : Mapping :=
  ⟨s.generated, s.origin.bind (·.resolve? sources names)⟩

/-- The tables have the source and the name of a segment. -/
def InTables (sources names : List String) (s : Segment) : Prop :=
  ∀ o ∈ s.origin, (o.resolve? sources names).isSome

instance (sources names : List String) (s : Segment) : Decidable (s.InTables sources names) :=
  inferInstanceAs (Decidable (∀ o ∈ s.origin, (o.resolve? sources names).isSome))

end Segment

namespace SourceMap

variable {sources names : List String}

/-- A segment is resolved when it is in the tables, and then it is the mapping it stands for. -/
theorem resolve_eq_ok_iff {s : Segment} {x : Mapping} :
    resolve sources names s = .ok x ↔ s.InTables sources names ∧ s.mapping sources names = x := by
  obtain ⟨line, column, none | ⟨source, sline, scolumn, name⟩⟩ := s
  · simp [resolve, Segment.InTables, Segment.mapping]
  · cases hsource : sources[source.toNat]? with
    | none => simp [resolve, Segment.InTables, SegmentOrigin.resolve?, hsource]
    | some file =>
      cases name with
      | none => simp [resolve, Segment.InTables, Segment.mapping, SegmentOrigin.resolve?, hsource,
          Segment.generated]
      | some i =>
        cases hname : names[i.toNat]? with
        | none => simp [resolve, Segment.InTables, SegmentOrigin.resolve?, hsource, hname]
        | some name => simp [resolve, Segment.InTables, Segment.mapping, SegmentOrigin.resolve?,
            hsource, hname, Segment.generated]

/-- A list is resolved when all of it is in the tables, and keeps its order. -/
theorem resolveAll_eq_ok_iff :
    ∀ {segments : List Segment} {resolved : List (Segment × Mapping)},
      resolveAll sources names segments = .ok resolved ↔
        (∀ s ∈ segments, s.InTables sources names) ∧
          resolved = segments.map fun s => (s, s.mapping sources names)
  | [], resolved => by
    simp [resolveAll, eq_comm]
  | s :: segments, resolved => by
    simp only [resolveAll, bind_eq_ok_iff, pure_eq_ok_iff, resolveAll_eq_ok_iff, resolve_eq_ok_iff,
      List.forall_mem_cons, List.map_cons]
    constructor
    · intro h
      obtain ⟨x, ⟨hs, rfl⟩, rest, ⟨hall, rfl⟩, rfl⟩ := h
      exact ⟨⟨hs, hall⟩, rfl⟩
    · intro h
      obtain ⟨⟨hs, hall⟩, rfl⟩ := h
      exact ⟨_, ⟨hs, rfl⟩, _, ⟨hall, rfl⟩, rfl⟩

/-- The segments of a decoded map in their order. -/
def ordered (segments : List Segment) : List Segment :=
  segments.mergeSort fun a b => Segment.keyLe a.sortKey b.sortKey

/-- **Decoding** succeeds when the text is read and the tables have every segment of it. The result
lists what the segments stand for in their order. -/
theorem ofDocument_eq_ok_iff {d : MapDocument} {m : SourceMap} :
    ofDocument d = .ok m ↔ ∃ segments,
      MappingText.decode d.mappings = .ok segments ∧
      (∀ s ∈ segments, s.InTables (rooted d.sourceRoot d.sources) d.names) ∧
      m = {
        file := d.file
        sources := sourceFiles (rooted d.sourceRoot d.sources) (d.sourcesContent.getD [])
        mappings := (ordered segments).map
          (Segment.mapping (rooted d.sourceRoot d.sources) d.names) } := by
  rw [ofDocument]
  cases MappingText.decode d.mappings with
  | error e => simp
  | ok segments =>
    simp only [bind_eq_ok_iff, pure_eq_ok_iff, resolveAll_eq_ok_iff, Except.ok.injEq]
    -- Sorting pairs by their segments is sorting the segments
    have hsort : ((segments.map fun s =>
          (s, s.mapping (rooted d.sourceRoot d.sources) d.names)).mergeSort fun a b =>
            Segment.keyLe a.1.sortKey b.1.sortKey).map (·.2) =
        (ordered segments).map (Segment.mapping (rooted d.sourceRoot d.sources) d.names) := by
      rw [ordered, ← List.map_mergeSort (r := fun a b => Segment.keyLe a.sortKey b.sortKey)
        (fun _ _ _ _ => rfl), List.map_map]
      rfl
    constructor
    · intro h
      obtain ⟨resolved, ⟨hall, rfl⟩, rfl⟩ := h
      exact ⟨segments, rfl, hall, by rw [hsort]⟩
    · intro h
      obtain ⟨_, rfl, hall, rfl⟩ := h
      exact ⟨_, ⟨hall, rfl⟩, by rw [hsort]⟩

/-- A document whose text lists its segments in order is decoded in this order. -/
theorem ofDocument_of_pairwise {d : MapDocument} {segments : List Segment}
    (hdecode : MappingText.decode d.mappings = .ok segments)
    (htables : ∀ s ∈ segments, s.InTables (rooted d.sourceRoot d.sources) d.names)
    (hsorted : segments.Pairwise fun a b => Segment.keyLe a.sortKey b.sortKey = true) :
    ofDocument d = .ok {
      file := d.file
      sources := sourceFiles (rooted d.sourceRoot d.sources) (d.sourcesContent.getD [])
      mappings := segments.map (Segment.mapping (rooted d.sourceRoot d.sources) d.names) } := by
  rw [ofDocument_eq_ok_iff]
  refine ⟨segments, hdecode, htables, ?_⟩
  rw [ordered, List.mergeSort_of_pairwise hsorted]

/-- What every mapping of a decoded map is like: it is not on line zero, its origin is not on line
zero, and its name is one of those that 32 bits can number. -/
theorem mapping_of_mem {d : MapDocument} {m : SourceMap} (hm : ofDocument d = .ok m)
    (hfit : d.LinesFit) {x : Mapping} (hx : x ∈ m.mappings) :
    x.generated.line ≠ 0 ∧ ∀ r ∈ x.origin, r.position.line ≠ 0 ∧
      ∀ n ∈ r.name, ∃ i : UInt32, d.names[i.toNat]? = some n := by
  obtain ⟨segments, hsegments, -, rfl⟩ := ofDocument_eq_ok_iff.mp hm
  obtain ⟨s, hs, rfl⟩ := List.mem_map.mp hx
  have hlines := hfit segments hsegments s (List.mem_mergeSort.mp hs)
  refine ⟨line_add_one_ne_zero hlines.1, fun r hr => ?_⟩
  obtain ⟨o, ho, hresolve⟩ := Option.bind_eq_some_iff.mp hr
  obtain ⟨hposition, hname⟩ := SegmentOrigin.eq_of_resolve? hresolve
  refine ⟨?_, hname⟩
  rw [hposition]
  exact line_add_one_ne_zero (hlines.2 o ho)

/-- Where no mapping and no origin is on line zero, no line was too large to count from one. -/
theorem linesFit_of_line_ne_zero {d : MapDocument} {m : SourceMap} (hm : ofDocument d = .ok m)
    (h : ∀ x ∈ m.mappings, x.generated.line ≠ 0 ∧ ∀ r ∈ x.origin, r.position.line ≠ 0) :
    d.LinesFit := by
  obtain ⟨segments, hsegments, htables, rfl⟩ := ofDocument_eq_ok_iff.mp hm
  refine MapDocument.linesFit_of_decode hsegments fun s hs => ?_
  obtain ⟨hline, horigin⟩ := h _ (List.mem_map_of_mem (List.mem_mergeSort.mpr hs))
  refine ⟨lt_of_line_add_one_ne_zero hline, fun o ho => ?_⟩
  obtain ⟨r, hr⟩ := Option.isSome_iff_exists.mp (htables s hs o ho)
  have hposition := (SegmentOrigin.eq_of_resolve? hr).1
  have hne := horigin r (Option.bind_eq_some_iff.mpr ⟨o, ho, hr⟩)
  rw [hposition] at hne
  exact lt_of_line_add_one_ne_zero hne

/-! ## Lookup -/

theorem pairwise_ordered (segments : List Segment) :
    (ordered segments).Pairwise fun a b => Segment.keyLe a.sortKey b.sortKey = true := by
  apply List.pairwise_mergeSort
  · exact fun _ _ _ => Segment.keyLe_trans
  · intro a b
    simpa using Segment.keyLe_total a.sortKey b.sortKey

theorem pairwise_generated_ordered (segments : List Segment) :
    (ordered segments).Pairwise fun a b => a.generated ≤ b.generated :=
  (pairwise_ordered segments).imp Segment.generated_le_of_keyLe

/-- The ordered segments are sorted by generated position and, at one position, by tie. -/
theorem sortedBy_ordered {segments : List Segment} (hfit : ∀ s ∈ segments, s.LinesFit) :
    Lookup.SortedBy Segment.generated Segment.tieKey (ordered segments) := by
  apply (pairwise_ordered segments).imp_of_mem
  intro a b ha hb hab
  rw [ordered, List.mem_mergeSort] at ha hb
  exact ⟨Segment.generated_le_of_keyLe hab, fun hplace =>
    (Segment.keyLe_sortKey_iff (hfit a ha) (hfit b hb) hplace).mp hab⟩

/-- The mappings of a decoded map do not go back. -/
theorem pairwise_generated {d : MapDocument} {m : SourceMap} (hm : ofDocument d = .ok m) :
    m.mappings.Pairwise fun a b => a.generated ≤ b.generated := by
  obtain ⟨segments, -, -, rfl⟩ := ofDocument_eq_ok_iff.mp hm
  exact List.pairwise_map.mpr (pairwise_generated_ordered segments)

/-- The mapping that decides about a position is one of the nearest. There is one as soon as a
mapping is reached. -/
theorem deciding?_spec {m : SourceMap}
    (hsorted : m.mappings.Pairwise fun a b => a.generated ≤ b.generated) (p : Position) :
    (m.deciding? p = none ↔ Lookup.reached Mapping.generated m.mappings p = []) ∧
      ∀ x, m.deciding? p = some x → x ∈ Lookup.nearest Mapping.generated m.mappings p := by
  -- Any mapping at the place would do, so all of them get the same key
  have hwalk : m.deciding? p =
      Lookup.closest? Mapping.generated (fun _ => ()) m.mappings p :=
    Lookup.walk?_eq_closest? (hsorted.imp fun hab => ⟨hab, fun _ => le_refl ()⟩) p
  rw [hwalk]
  exact ⟨Lookup.closest?_eq_none_iff, fun x hx => (Lookup.closest?_mem hx).1⟩

/-- An answer is the origin of a mapping. -/
theorem exists_mapping_of_trace {m : SourceMap} {p : Position} {r : Origin}
    (h : m.trace p = some r) : ∃ x ∈ m.mappings, x.origin = some r := by
  obtain ⟨x, hx, hr⟩ := Option.bind_eq_some_iff.mp h
  exact ⟨x, @Lookup.mem_of_walk? _ Mapping.generated _ _ _ hx, hr⟩

theorem line_ne_zero_of_trace {d : MapDocument} {m : SourceMap} (hm : ofDocument d = .ok m)
    (hfit : d.LinesFit) {p : Position} {r : Origin} (h : m.trace p = some r) :
    r.position.line ≠ 0 := by
  obtain ⟨x, hx, hr⟩ := exists_mapping_of_trace h
  exact ((mapping_of_mem hm hfit hx).2 r hr).1

/-- Looking up a position in a decoded map resolves the closest of its segments, in whatever order
these are listed. -/
theorem trace_eq_bind {d : MapDocument} {m : SourceMap} {segments listed : List Segment}
    (hm : ofDocument d = .ok m) (hsegments : MappingText.decode d.mappings = .ok segments)
    (hfit : d.LinesFit) (hlisted : listed.Perm segments) (p : Position) :
    m.trace p = (Lookup.closest? Segment.generated Segment.tieKey listed p).bind fun s =>
      s.origin.bind (·.resolve? (rooted d.sourceRoot d.sources) d.names) := by
  obtain ⟨segments', hsegments', -, rfl⟩ := ofDocument_eq_ok_iff.mp hm
  obtain rfl := Except.ok.inj (hsegments.symm.trans hsegments')
  -- The decoded order is one of the orders in which the segments can be listed
  have hperm : (ordered segments).Perm listed :=
    (List.mergeSort_perm _ _).trans hlisted.symm
  have hclosest : Lookup.walk? Segment.generated (ordered segments) p =
      Lookup.closest? Segment.generated Segment.tieKey listed p := by
    rw [Lookup.walk?_eq_closest? (sortedBy_ordered (hfit segments hsegments))]
    exact Lookup.closest?_perm hperm (fun _ _ _ _ => Segment.eq_of_generated_eq) p
  -- The lookup of a map is the walk over its mappings
  show Option.bind (Lookup.walk? Mapping.generated ((ordered segments).map _) p) _ = _
  rw [Lookup.walk?_map]
  show Option.bind (Option.map _ (Lookup.walk? Segment.generated (ordered segments) p)) _ = _
  rw [hclosest, Option.bind_map]
  rfl

/-- **Looking up a position** is looking for the closest segment: of those on its line and not after
it, at the greatest column, the least by origin and name. Without one, or when that one has no
origin, there is no answer; otherwise the answer is what the tables have for its origin. -/
theorem trace_eq_of_closest {d : MapDocument} {m : SourceMap} {segments listed : List Segment}
    (hm : ofDocument d = .ok m) (hsegments : MappingText.decode d.mappings = .ok segments)
    (hfit : d.LinesFit) (hlisted : listed.Perm segments) (p : Position) :
    match Lookup.closest? Segment.generated Segment.tieKey listed p with
    | none => m.trace p = none
    | some s => match s.origin with
      | none => m.trace p = none
      | some o => ∃ r, o.resolve? (rooted d.sourceRoot d.sources) d.names = some r ∧
          m.trace p = some r := by
  rw [trace_eq_bind hm hsegments hfit hlisted p]
  obtain ⟨segments', hsegments', htables, -⟩ := ofDocument_eq_ok_iff.mp hm
  obtain rfl := Except.ok.inj (hsegments.symm.trans hsegments')
  cases hclosest : Lookup.closest? Segment.generated Segment.tieKey listed p with
  | none => rfl
  | some s =>
    -- The closest segment is one of the document, so the tables have its origin
    have hmem : s ∈ segments := hlisted.mem_iff.mp (Lookup.mem_of_closest? hclosest)
    cases horigin : s.origin with
    | none => simp only [Option.bind_some, horigin, Option.bind_none]
    | some o =>
      obtain ⟨r, hr⟩ := Option.isSome_iff_exists.mp (htables s hmem o horigin)
      simp only [Option.bind_some, horigin]
      exact ⟨r, hr, hr⟩

/-- A document with two segments at one place, of which the text lists the named one first. -/
def tiedDocument : MapDocument where
  version := MapDocument.supportedVersion
  file := none
  sourceRoot := some "root/"
  sources := ["a.ts", "b.ts"]
  sourcesContent := none
  names := ["n"]
  mappings := "KAAA,FCACA,AAAA;C"

/-- Its segments in the order of the text. -/
def tiedSegments : List Segment :=
  [⟨0, 5, some ⟨0, 0, 0, none⟩⟩, ⟨0, 3, some ⟨1, 0, 1, some 0⟩⟩, ⟨0, 3, some ⟨1, 0, 1, none⟩⟩,
    ⟨1, 1, none⟩]

/-- Of two segments at one place the unnamed one answers, also for a position behind them. -/
theorem trace_tiedDocument :
    ∃ m, ofDocument tiedDocument = .ok m ∧ tiedDocument.LinesFit ∧
      m.trace ⟨1, 4⟩ = some ⟨"root/b.ts", ⟨1, 1⟩, none⟩ := by
  have hsegments : MappingText.decode tiedDocument.mappings = .ok tiedSegments := by
    decide +kernel
  have htables : ∀ s ∈ tiedSegments, s.InTables (rooted tiedDocument.sourceRoot
      tiedDocument.sources) tiedDocument.names := by
    simp [tiedSegments, Segment.InTables, SegmentOrigin.resolve?, rooted, tiedDocument]
  have hfit : tiedDocument.LinesFit :=
    MapDocument.linesFit_of_decode hsegments (by simp [tiedSegments, Segment.LinesFit, UInt32.size])
  have hclosest : Lookup.closest? Segment.generated Segment.tieKey tiedSegments.reverse ⟨1, 4⟩ =
      some ⟨0, 3, some ⟨1, 0, 1, none⟩⟩ := by
    decide +kernel
  refine ⟨_, ofDocument_eq_ok_iff.mpr ⟨_, hsegments, htables, rfl⟩, hfit, ?_⟩
  have h := trace_eq_of_closest (ofDocument_eq_ok_iff.mpr ⟨_, hsegments, htables, rfl⟩) hsegments
    hfit (List.reverse_perm tiedSegments) ⟨1, 4⟩
  rw [hclosest] at h
  obtain ⟨r, hr, htrace⟩ := h
  rw [htrace, ← hr]
  rfl

end SourceMap

end MapChain
