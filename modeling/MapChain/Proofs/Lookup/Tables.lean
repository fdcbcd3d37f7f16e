import Mathlib.Data.List.DropRight
import Mathlib.Data.List.TakeDrop
import Mathlib.Data.Option.Defs
import MapChain.Proofs.Lookup.Decoded

/-!
# Tables of a decoded document

Segments point into tables by index. Whether all of them point inside is tested once, against the
tables as the document has them; the sources are then put behind the root, and the table of texts
is cut or filled up to the length of theirs. A decoded map answers what is read in these tables, and
no answer reads beyond the end of one.

## Layers

- **Bounds**: a segment is in bounds (`Segment.InBounds`) or offends, and then it is refused with
  the error that `Segment.Offends` gives (`resolve_eq_error_iff`).
- **Faults**: the text or else the first segment that offends decides about a document
  (`ofDocument_eq_error_iff`).
- **Presentation**: what a mapping says of the segment it stands for (`MapDocument.Presents`), with
  its source behind the root (`BehindRoot`).
- **Reading by index**: `Lookup.search?` walks to a segment and back by index, and is
  `Lookup.walk?` on a sorted list (`search?_eq_walk?`).
- **Tables**: `MapTables` answers from the tables alone; a missing answer is one that was looked up
  beyond the end of a table.
- **Statement**: `ofDocument_checked`.
-/

namespace MapChain

/-! ## Bounds -/

namespace Segment

/-- The source and the name of a segment are below the lengths of their tables. -/
def InBounds (sources names : Nat) (s : Segment) : Prop :=
  ∀ o ∈ s.origin, o.source.toNat < sources ∧ ∀ i ∈ o.name, i.toNat < names

/-- Why a segment is not in bounds. The source counts before the name. -/
inductive Offends (sources names : Nat) (s : Segment) : MapError → Prop
  | source {o : SegmentOrigin} (horigin : s.origin = some o) (h : sources ≤ o.source.toNat) :
    Offends sources names s (.sourceOutOfRange o.source)
  | name {o : SegmentOrigin} {i : UInt32} (horigin : s.origin = some o)
    (hsource : o.source.toNat < sources) (hname : o.name = some i) (h : names ≤ i.toNat) :
    Offends sources names s (.nameOutOfRange i)

end Segment

/-- An origin is found in the tables when both of its indices are below their lengths. -/
theorem SegmentOrigin.isSome_resolve?_iff {sources names : List String} {o : SegmentOrigin} :
    (o.resolve? sources names).isSome ↔
      o.source.toNat < sources.length ∧ ∀ i ∈ o.name, i.toNat < names.length := by
  obtain ⟨source, line, column, none | i⟩ := o
  all_goals
    simp only [resolve?, Option.isSome_iff_exists, Option.bind_eq_bind, Option.bind_eq_some_iff,
      Option.pure_def, Option.some.injEq]
    simp [← Option.isSome_iff_exists]

theorem Segment.inTables_iff_inBounds {sources names : List String} {s : Segment} :
    s.InTables sources names ↔ s.InBounds sources.length names.length :=
  forall₂_congr fun _ _ => SegmentOrigin.isSome_resolve?_iff

/-- The first element of a list to have a property, behind some that have another one, is its head
or the first one of its tail. -/
theorem exists_first_cons_iff {α : Type} {P Q : α → Prop} {a : α} {l : List α} :
    (∃ before b after, a :: l = before ++ b :: after ∧ (∀ c ∈ before, P c) ∧ Q b) ↔
      Q a ∨ P a ∧ ∃ before b after, l = before ++ b :: after ∧ (∀ c ∈ before, P c) ∧ Q b := by
  constructor
  · rintro ⟨_ | ⟨c, before⟩, b, after, hsplit, hbefore, hb⟩
    · obtain ⟨rfl, rfl⟩ := List.cons.inj hsplit
      exact .inl hb
    · obtain ⟨rfl, rfl⟩ := List.cons.inj hsplit
      obtain ⟨ha, hbefore⟩ := List.forall_mem_cons.mp hbefore
      exact .inr ⟨ha, before, b, after, rfl, hbefore, hb⟩
  · rintro (ha | ⟨ha, before, b, after, rfl, hbefore, hb⟩)
    · exact ⟨[], a, l, rfl, by simp, ha⟩
    · exact ⟨a :: before, b, after, rfl, List.forall_mem_cons.mpr ⟨ha, hbefore⟩, hb⟩

namespace SourceMap

variable {sources names : List String}

/-- A segment is refused for what it offends with. -/
theorem resolve_eq_error_iff {s : Segment} {e : MapError} :
    resolve sources names s = .error e ↔ s.Offends sources.length names.length e := by
  constructor
  · intro h
    rw [resolve] at h
    split at h
    · cases h
    next o horigin =>
      split at h
      next hsource =>
        cases h
        exact .source horigin (List.getElem?_eq_none_iff.mp hsource)
      next source hsource =>
        split at h
        · cases h
        next i hname =>
          split at h
          next hmissing =>
            cases h
            exact .name horigin (List.getElem?_eq_some_iff.mp hsource).1 hname
              (List.getElem?_eq_none_iff.mp hmissing)
          · cases h
  · intro h
    cases h with
    | source horigin h =>
      simp only [resolve, horigin, List.getElem?_eq_none h]
    | name horigin hsource hname h =>
      simp only [resolve, horigin, List.getElem?_eq_getElem hsource, hname,
        List.getElem?_eq_none h]

/-- Of a list the first segment that offends decides. -/
theorem resolveAll_eq_error_iff {e : MapError} : ∀ {segments : List Segment},
    resolveAll sources names segments = .error e ↔ ∃ before s after,
      segments = before ++ s :: after ∧
      (∀ b ∈ before, b.InBounds sources.length names.length) ∧
      s.Offends sources.length names.length e
  | [] => by simp [resolveAll]
  | s :: segments => by
    rw [exists_first_cons_iff, ← resolveAll_eq_error_iff, ← resolve_eq_error_iff,
      ← Segment.inTables_iff_inBounds]
    cases hs : resolve sources names s with
    | error e' =>
      have hnot : ¬ s.InTables sources names := by
        intro htables
        rw [resolve_eq_ok_iff.mpr ⟨htables, rfl⟩] at hs
        cases hs
      simp [resolveAll, hs, hnot]
    | ok x =>
      have htables : s.InTables sources names := (resolve_eq_ok_iff.mp hs).1
      cases hall : resolveAll sources names segments <;> simp [resolveAll, hs, hall, htables]

/-- A source with the root in front of it. -/
def behind (root : Option String) (source : String) : String :=
  match root with
  | none => source
  | some root => if root = "" then source else trimSlashes root ++ "/" ++ source

theorem rooted_eq_map (root : Option String) (sources : List String) :
    rooted root sources = sources.map (behind root) := by
  cases root with
  | none => exact (List.map_id sources).symm
  | some root =>
    by_cases hroot : root = ""
    · have hid : behind (some root) = id := funext fun source => if_pos hroot
      rw [rooted, if_pos hroot, hid, List.map_id]
    · have hfront : behind (some root) = fun source => trimSlashes root ++ "/" ++ source :=
        funext fun source => if_neg hroot
      rw [rooted, if_neg hroot, hfront]

theorem length_rooted (root : Option String) (sources : List String) :
    (rooted root sources).length = sources.length := by
  rw [rooted_eq_map, List.length_map]

end SourceMap

/-! ## Faults -/

/-- What is wrong with a document: its text, or else the first segment in it that offends. -/
inductive MapDocument.Fault (d : MapDocument) : MapError → Prop
  | text {offset : Nat} {fault : MappingFault}
    (h : MappingText.decode d.mappings = .error (offset, fault)) :
    Fault d (.invalidMappings offset fault)
  | segment {before after : List Segment} {s : Segment} {e : MapError}
    (h : MappingText.decode d.mappings = .ok (before ++ s :: after))
    (hbefore : ∀ b ∈ before, b.InBounds d.sources.length d.names.length)
    (hs : s.Offends d.sources.length d.names.length e) : Fault d e

namespace SourceMap

/-- A document is refused for what is wrong with it. -/
theorem ofDocument_eq_error_iff {d : MapDocument} {e : MapError} :
    ofDocument d = .error e ↔ d.Fault e := by
  cases hdecode : MappingText.decode d.mappings with
  | error fault =>
    have hfault : ofDocument d = .error (.invalidMappings fault.1 fault.2) := by
      simp only [ofDocument, hdecode]
    rw [hfault, Except.error.injEq]
    constructor
    · rintro rfl
      exact .text hdecode
    · intro h
      cases h with
      | text h => cases hdecode.symm.trans h; rfl
      | segment h => cases hdecode.symm.trans h
  | ok segments =>
    have hresolve : ofDocument d = .error e ↔
        resolveAll (rooted d.sourceRoot d.sources) d.names segments = .error e := by
      simp only [ofDocument, hdecode]
      cases resolveAll (rooted d.sourceRoot d.sources) d.names segments <;> simp
    rw [hresolve, resolveAll_eq_error_iff, length_rooted]
    constructor
    · rintro ⟨before, s, after, rfl, hbefore, hs⟩
      exact .segment hdecode hbefore hs
    · intro h
      cases h with
      | text h => cases hdecode.symm.trans h
      | segment h hbefore hs =>
        exact ⟨_, _, _, Except.ok.inj (hdecode.symm.trans h), hbefore, hs⟩

end SourceMap

/-! ## Presentation -/

/-- A source behind a root. Without a root, or behind an empty one, it is the source itself.
Otherwise one slash stands between what the root is without the slashes at its end and the
source. -/
inductive BehindRoot : Option String → String → String → Prop
  | none {source : String} : BehindRoot none source source
  | empty {source : String} : BehindRoot (some "") source source
  | some {stem slashes source : String} (hroot : stem ++ slashes ≠ "")
    (hslashes : ∀ c ∈ slashes.toList, c = '/') (hstem : stem.toList.getLast? ≠ some '/') :
    BehindRoot (some (stem ++ slashes)) source (stem ++ "/" ++ source)

/-- What is resolved of an origin. -/
structure MapDocument.PresentsOrigin (d : MapDocument) (o : SegmentOrigin) (r : Origin) : Prop where
  source : ∃ source, d.sources[o.source.toNat]? = some source ∧
    BehindRoot d.sourceRoot source r.source
  line : r.position.line.toNat = o.line.toNat + 1
  column : r.position.column = o.column
  name : Option.Rel (fun (i : UInt32) name => d.names[i.toNat]? = some name) o.name r.name

/-- What a mapping says of a segment: where it is, with the line counted from one, and where it
comes from, if it comes from anywhere. -/
structure MapDocument.Presents (d : MapDocument) (s : Segment) (x : Mapping) : Prop where
  line : x.generated.line.toNat = s.line.toNat + 1
  column : x.generated.column = s.column
  origin : Option.Rel d.PresentsOrigin s.origin x.origin

namespace SourceMap

/-- A text is what is left of it without the slashes at its end, which does not end in one, and
these slashes. -/
theorem trimSlashes_append (text : String) : ∃ slashes,
    trimSlashes text ++ slashes = text ∧ (∀ c ∈ slashes.toList, c = '/') ∧
      (trimSlashes text).toList.getLast? ≠ some '/' := by
  have htrim : (trimSlashes text).toList = text.toList.rdropWhile (· == '/') := by
    rw [trimSlashes, String.toList_ofList, List.rdropWhile]
  refine ⟨String.ofList (text.toList.rtakeWhile (· == '/')), ?_, ?_, ?_⟩
  · rw [← String.toList_inj, String.toList_append, htrim, String.toList_ofList,
      List.rdropWhile_append_rtakeWhile]
  · intro c hc
    rw [String.toList_ofList] at hc
    simpa using List.mem_rtakeWhile_imp hc
  · intro hlast
    rw [htrim] at hlast
    obtain ⟨hne, hslash⟩ := List.mem_getLast?_eq_getLast hlast
    have hnot := List.rdropWhile_last_not (· == '/') text.toList hne
    simp [← hslash] at hnot

/-- Only the slashes at the end of a text are left out. -/
theorem trimSlashes_eq {stem slashes : String} (hslashes : ∀ c ∈ slashes.toList, c = '/')
    (hstem : stem.toList.getLast? ≠ some '/') : trimSlashes (stem ++ slashes) = stem := by
  have hdrop : (slashes.toList.reverse ++ stem.toList.reverse).dropWhile (· == '/') =
      stem.toList.reverse.dropWhile (· == '/') :=
    List.dropWhile_append_of_pos fun c hc => by simpa using hslashes c (List.mem_reverse.mp hc)
  have hkeep : stem.toList.reverse.dropWhile (· == '/') = stem.toList.reverse := by
    rw [List.dropWhile_eq_self_iff]
    intro hlength hslash
    rw [← List.head?_reverse, List.head?_eq_getElem?, List.getElem?_eq_getElem hlength] at hstem
    exact hstem (congrArg some (by simpa using hslash))
  rw [trimSlashes, String.toList_append, List.reverse_append, hdrop, hkeep, List.reverse_reverse,
    String.ofList_toList]

theorem behindRoot_iff {root : Option String} {source full : String} :
    BehindRoot root source full ↔ full = behind root source := by
  constructor
  · intro h
    cases h with
    | none => rfl
    | empty => rfl
    | some hroot hslashes hstem => rw [behind, if_neg hroot, trimSlashes_eq hslashes hstem]
  · rintro rfl
    cases root with
    | none => exact .none
    | some root =>
      rw [behind]
      split
      next hempty =>
        rw [hempty]
        exact .empty
      next hroot =>
        obtain ⟨slashes, happend, hslashes, hstem⟩ := trimSlashes_append root
        have hbehind : BehindRoot (some (trimSlashes root ++ slashes)) source
            (trimSlashes root ++ "/" ++ source) := .some (by rwa [happend]) hslashes hstem
        rwa [happend] at hbehind

theorem behindRoot_of_rooted {root : Option String} {sources : List String} {i : Nat}
    {full : String} (h : (rooted root sources)[i]? = some full) :
    ∃ source, sources[i]? = some source ∧ BehindRoot root source full := by
  rw [rooted_eq_map, List.getElem?_map, Option.map_eq_some_iff] at h
  obtain ⟨source, hsource, hfull⟩ := h
  exact ⟨source, hsource, behindRoot_iff.mpr hfull.symm⟩

theorem presentsOrigin_of_resolve? {d : MapDocument} {o : SegmentOrigin} {r : Origin}
    (hline : o.line.toNat + 1 < UInt32.size)
    (h : o.resolve? (rooted d.sourceRoot d.sources) d.names = some r) : d.PresentsOrigin o r := by
  rw [SegmentOrigin.resolve?] at h
  obtain ⟨full, hfull, h⟩ := Option.bind_eq_some_iff.mp h
  have hsource := behindRoot_of_rooted hfull
  split at h
  next hname =>
    cases h
    refine ⟨hsource, toNat_line_add_one hline, rfl, ?_⟩
    rw [hname]
    exact .none
  next i hname =>
    obtain ⟨name, hfound, h⟩ := Option.bind_eq_some_iff.mp h
    cases h
    refine ⟨hsource, toNat_line_add_one hline, rfl, ?_⟩
    rw [hname]
    exact .some hfound

/-- The mapping that a segment stands for presents it. -/
theorem presents_mapping {d : MapDocument} {s : Segment} (hfit : s.LinesFit)
    (htables : s.InTables (rooted d.sourceRoot d.sources) d.names) :
    d.Presents s (s.mapping (rooted d.sourceRoot d.sources) d.names) := by
  refine ⟨toNat_line_add_one hfit.1, rfl, ?_⟩
  cases horigin : s.origin with
  | none =>
    simp only [Segment.mapping, horigin, Option.bind_none]
    exact .none
  | some o =>
    obtain ⟨r, hr⟩ := Option.isSome_iff_exists.mp (htables o horigin)
    simp only [Segment.mapping, horigin, Option.bind_some, hr]
    exact .some (presentsOrigin_of_resolve? (hfit.2 o horigin) hr)

end SourceMap

/-! ## Reading by index -/

namespace Lookup

variable {α : Type}

/-- Walks back over the entries at a place that stand in front of an index, to the index of the
first of them. -/
def walkBack? (place : α → Position) (entries : List α) (p : Position) : Nat → Option Nat
  | 0 => some 0
  | n + 1 => do
    let before ← entries[n]?
    if place before = p then walkBack? place entries p n else some (n + 1)

/-- The entry that `walk?` finds, read by index: the last of the entries that are not after a
position is in front of the first that is, and the first one at its place is found by walking back.
Nothing is returned when an index is beyond the end. -/
def search? (place : α → Position) (entries : List α) (p : Position) : Option (Option α) :=
  match (entries.takeWhile (place · ≤ p)).length with
  | 0 => some none
  | n + 1 => do
    let last ← entries[n]?
    if (place last).line = p.line then
      let first ← walkBack? place entries (place last) n
      return some (← entries[first]?)
    else return none

theorem place_le_of_getElem? {place : α → Position} {entries : List α}
    (hsorted : entries.Pairwise fun a b => place a ≤ place b) {i j : Nat} {a b : α} (hij : i ≤ j)
    (ha : entries[i]? = some a) (hb : entries[j]? = some b) : place a ≤ place b := by
  obtain ⟨hi, rfl⟩ := List.getElem?_eq_some_iff.mp ha
  obtain ⟨hj, rfl⟩ := List.getElem?_eq_some_iff.mp hb
  rcases Nat.lt_or_eq_of_le hij with hlt | rfl
  · exact List.pairwise_iff_getElem.mp hsorted i j hi hj hlt
  · exact Position.le_refl _

/-- Walking back from an entry finds the first one at its place. -/
theorem walkBack?_bind {place : α → Position} {entries : List α} {p : Position}
    (hsorted : entries.Pairwise fun a b => place a ≤ place b) :
    ∀ {n : Nat} {last : α}, entries[n]? = some last → place last = p →
      ((walkBack? place entries p n).bind fun i => entries[i]?) =
        (entries.take (n + 1)).find? (place · = p)
  | 0, last, hlast, hplace => by
    simp [walkBack?, List.take_add_one, hlast, hplace]
  | n + 1, last, hlast, hplace => by
    have hn : n < entries.length := Nat.lt_of_succ_lt (List.getElem?_eq_some_iff.mp hlast).1
    have hbefore : entries[n]? = some entries[n] := List.getElem?_eq_getElem hn
    have hsplit : entries.take (n + 2) = entries.take (n + 1) ++ [last] := by
      rw [List.take_add_one, hlast, Option.toList_some]
    rw [hsplit, List.find?_append, walkBack?, hbefore, Option.bind_eq_bind, Option.bind_some]
    by_cases hsame : place entries[n] = p
    · -- The first one is in front of the last, and the walk goes on to it
      have hfound : ((entries.take (n + 1)).find? (place · = p)).isSome := by
        rw [List.find?_isSome]
        exact ⟨entries[n], List.mem_take_iff_getElem.mpr ⟨n, by omega, rfl⟩, by simpa using hsame⟩
      rw [if_pos hsame, walkBack?_bind hsorted hbefore hsame, Option.or_of_isSome hfound]
    · -- Whatever stands in front of the last is at an earlier place
      have hnone : (entries.take (n + 1)).find? (place · = p) = none := by
        rw [List.find?_eq_none]
        intro a ha hap
        obtain ⟨i, hi, rfl⟩ := List.mem_take_iff_getElem.mp ha
        have hle := place_le_of_getElem? hsorted (by omega : i ≤ n)
          (List.getElem?_eq_getElem (by omega)) hbefore
        have hle' := place_le_of_getElem? hsorted (Nat.le_succ n) hbefore hlast
        rw [decide_eq_true_eq] at hap
        rw [hap] at hle
        rw [hplace] at hle'
        exact hsame (Position.le_antisymm hle' hle)
      rw [if_neg hsame, Option.bind_some, hlast, hnone]
      simp [hplace]

/-- **Reading by index stays within a sorted list**, and finds what a walk over it finds. -/
theorem search?_eq_walk? {place : α → Position} {entries : List α}
    (hsorted : entries.Pairwise fun a b => place a ≤ place b) (p : Position) :
    search? place entries p = some (walk? place entries p) := by
  have hpassed : entries.takeWhile (place · ≤ p) =
      entries.take (entries.takeWhile (place · ≤ p)).length :=
    List.prefix_iff_eq_take.mp (List.takeWhile_prefix _)
  rw [search?, walk?]
  cases hcount : (entries.takeWhile (place · ≤ p)).length with
  | zero =>
    rw [List.length_eq_zero_iff.mp hcount]
    rfl
  | succ n =>
    rw [hcount] at hpassed
    have hn : n < entries.length := by
      have := (List.takeWhile_prefix (l := entries) (place · ≤ p)).length_le
      omega
    have hlast : entries[n]? = some entries[n] := List.getElem?_eq_getElem hn
    have hgetLast : (entries.takeWhile (place · ≤ p)).getLast? = some entries[n] := by
      rw [hpassed, List.take_add_one, hlast, Option.toList_some, List.getLast?_concat]
    simp only [hgetLast, hlast, Option.bind_eq_bind, Option.bind_some]
    by_cases hline : (place entries[n]).line = p.line
    · -- The last one is at its own place, so walking back finds some entry
      obtain ⟨first, hfirst⟩ : ∃ first, (entries.take (n + 1)).find?
          (place · = place entries[n]) = some first := by
        rw [← Option.isSome_iff_exists, List.find?_isSome]
        exact ⟨entries[n], List.mem_take_iff_getElem.mpr ⟨n, by omega, rfl⟩, by simp⟩
      have hwalk := walkBack?_bind hsorted hlast rfl
      rw [hfirst] at hwalk
      obtain ⟨i, hi, hentry⟩ := Option.bind_eq_some_iff.mp hwalk
      rw [if_pos hline, if_pos hline, hpassed, hfirst, hi, Option.bind_some, hentry]
      rfl
    · rw [if_neg hline, if_neg hline]
      rfl

end Lookup

/-! ## Tables -/

/-- What a document is decoded to before anything is looked up in it. -/
structure MapTables where
  /-- The sources behind the root. -/
  sources : List String
  /-- The text of each source. -/
  contents : List (Option String)
  names : List String
  /-- The segments in their order. -/
  segments : List Segment

/-- The tables of a document. The table of texts gets one entry for each source: an entry beyond the
sources is left out, and one that is missing is no text. -/
def MapDocument.tables (d : MapDocument) (segments : List Segment) : MapTables where
  sources := SourceMap.rooted d.sourceRoot d.sources
  contents := (d.sourcesContent.getD []).takeD d.sources.length none
  names := d.names
  segments := SourceMap.ordered segments

namespace MapTables

/-- The mapping of a segment. As for all that is read in tables, nothing is returned when an index
is beyond the end of its table. -/
def mapping? (t : MapTables) (s : Segment) : Option Mapping :=
  match s.origin with
  | none => some ⟨s.generated, none⟩
  | some o => (o.resolve? t.sources t.names).map fun r => ⟨s.generated, some r⟩

def mappings? (t : MapTables) : Option (List Mapping) := t.segments.mapM t.mapping?

/-- Where a generated position comes from, if it comes from anywhere. -/
def trace? (t : MapTables) (p : Position) : Option (Option Origin) := do
  match ← Lookup.search? Segment.generated t.segments p with
  | none => return none
  | some s => return (← t.mapping? s).origin

/-- The embedded text of a source, if there is any. -/
def content? (t : MapTables) (source : String) : Option (Option String) :=
  match t.sources.findIdx? (· == source) with
  | none => some none
  | some i => t.contents[i]?

/-- Everything that a map answers is read in the tables, and within their bounds. -/
structure Answers (t : MapTables) (m : SourceMap) : Prop where
  mappings : t.mappings? = some m.mappings
  trace : ∀ p, t.trace? p = some (m.trace p)
  content : ∀ source, t.content? source = some (m.content? source)

theorem mapping?_eq_some {t : MapTables} {s : Segment} (h : s.InTables t.sources t.names) :
    t.mapping? s = some (s.mapping t.sources t.names) := by
  cases horigin : s.origin with
  | none => simp only [mapping?, Segment.mapping, horigin, Option.bind_none]
  | some o =>
    obtain ⟨r, hr⟩ := Option.isSome_iff_exists.mp (h o horigin)
    simp only [mapping?, Segment.mapping, horigin, Option.bind_some, hr, Option.map_some]

end MapTables

/-- A list cut or filled up to a length has an entry at every index below it. -/
theorem getElem?_takeD {α : Type} (a : α) :
    ∀ {n i : Nat} (l : List α), i < n → (l.takeD n a)[i]? = some (l[i]?.getD a)
  | n + 1, 0, l, _ => by simp [List.head?_eq_getElem?]
  | n + 1, i + 1, l, h => by
    rw [List.takeD_succ, List.getElem?_cons_succ, getElem?_takeD a l.tail (by omega),
      List.getElem?_tail]

namespace SourceMap

/-- The text of a source is the one at the index of the source. -/
theorem content?_sourceFiles (sources : List String) (contents : List (Option String))
    (source : String) :
    SourceFile.content? (sourceFiles sources contents) source =
      ((sources.findIdx? (· == source)).bind fun i => (contents[i]?).join) := by
  have hnames : (sourceFiles sources contents).map (·.name) = sources := by
    apply List.ext_getElem? fun i => ?_
    cases h : sources[i]? <;> simp [sourceFiles, List.getElem?_mapIdx, h]
  have hindex : (sourceFiles sources contents).findIdx? (·.name == source) =
      sources.findIdx? (· == source) := by
    conv_rhs => rw [← hnames, List.findIdx?_map]
    rfl
  rw [SourceFile.content?, List.find?_eq_bind_findIdx?_getElem?, hindex, Option.bind_assoc]
  cases hi : sources.findIdx? (· == source) with
  | none => rfl
  | some i =>
    have hbound : i < sources.length := (List.findIdx?_eq_some_iff_getElem.mp hi).1
    simp [sourceFiles, hbound]

/-- What a decoded map answers is read in the tables of its document. -/
theorem tables_answers {d : MapDocument} {segments : List Segment}
    (htables : ∀ s ∈ segments, s.InTables (rooted d.sourceRoot d.sources) d.names) :
    (d.tables segments).Answers {
      file := d.file
      sources := sourceFiles (rooted d.sourceRoot d.sources) (d.sourcesContent.getD [])
      mappings := (ordered segments).map
        (Segment.mapping (rooted d.sourceRoot d.sources) d.names) } := by
  have hmapping : ∀ s ∈ ordered segments, (d.tables segments).mapping? s =
      some (s.mapping (rooted d.sourceRoot d.sources) d.names) := fun s hs =>
    MapTables.mapping?_eq_some (htables s (List.mem_mergeSort.mp hs))
  refine ⟨?_, fun p => ?_, fun source => ?_⟩
  · rw [MapTables.mappings?, mapM_eq_some_iff, List.forall₂_map_right_iff]
    exact List.forall₂_same.mpr hmapping
  · have hsearch : Lookup.search? Segment.generated (d.tables segments).segments p =
        some (Lookup.walk? Segment.generated (ordered segments) p) :=
      Lookup.search?_eq_walk? (pairwise_generated_ordered segments) p
    -- The lookup of a map is the walk over its mappings
    show MapTables.trace? _ p = some (Option.bind (Lookup.walk? Mapping.generated _ p) _)
    rw [MapTables.trace?, hsearch, Lookup.walk?_map]
    show _ = some (Option.bind (Option.map _ (Lookup.walk? Segment.generated _ p)) _)
    cases hfound : Lookup.walk? Segment.generated (ordered segments) p with
    | none => rfl
    | some s =>
      simp only [Option.bind_eq_bind, Option.bind_some, Option.map_some]
      rw [hmapping s (Lookup.mem_of_walk? hfound)]
      rfl
  · have hlength : d.sources.length = (rooted d.sourceRoot d.sources).length :=
      (length_rooted d.sourceRoot d.sources).symm
    rw [content?, content?_sourceFiles, MapTables.content?]
    simp only [MapDocument.tables]
    cases hi : (rooted d.sourceRoot d.sources).findIdx? (· == source) with
    | none => rfl
    | some i =>
      have hbound : i < d.sources.length := by
        rw [hlength]
        exact (List.findIdx?_eq_some_iff_getElem.mp hi).1
      simp only [getElem?_takeD none _ hbound, Option.bind_some]
      cases (d.sourcesContent.getD [])[i]? <;> rfl

/-! ## Statement -/

/-- **A document is decoded when its text is read and no segment points beyond a table.** Otherwise
the fault in the text, or else the first segment that does, is the error. The decoded map has one
mapping for each segment, which presents it, and all its answers are read within the bounds of its
tables. -/
theorem ofDocument_checked {d : MapDocument} (hfit : d.LinesFit) :
    ((∃ m, ofDocument d = .ok m) ↔ ∃ segments, MappingText.decode d.mappings = .ok segments ∧
        ∀ s ∈ segments, s.InBounds d.sources.length d.names.length) ∧
      (∀ e, ofDocument d = .error e ↔ d.Fault e) ∧
      ∀ m, ofDocument d = .ok m → ∃ segments, MappingText.decode d.mappings = .ok segments ∧
        m.mappings.length = segments.length ∧
        (∃ listed, listed.Perm segments ∧ List.Forall₂ d.Presents listed m.mappings) ∧
        (d.tables segments).Answers m := by
  have hbounds (s : Segment) : s.InTables (rooted d.sourceRoot d.sources) d.names ↔
      s.InBounds d.sources.length d.names.length := by
    rw [Segment.inTables_iff_inBounds, length_rooted]
  refine ⟨?_, fun e => ofDocument_eq_error_iff, ?_⟩
  · constructor
    · rintro ⟨m, hm⟩
      obtain ⟨segments, hdecode, htables, -⟩ := ofDocument_eq_ok_iff.mp hm
      exact ⟨segments, hdecode, fun s hs => (hbounds s).mp (htables s hs)⟩
    · rintro ⟨segments, hdecode, hall⟩
      exact ⟨_, ofDocument_eq_ok_iff.mpr
        ⟨segments, hdecode, fun s hs => (hbounds s).mpr (hall s hs), rfl⟩⟩
  · intro m hm
    obtain ⟨segments, hdecode, htables, rfl⟩ := ofDocument_eq_ok_iff.mp hm
    have hlines := hfit segments hdecode
    refine ⟨segments, hdecode, ?_, ⟨ordered segments, List.mergeSort_perm _ _, ?_⟩,
      tables_answers htables⟩
    · rw [List.length_map, ordered, List.length_mergeSort]
    · rw [List.forall₂_map_right_iff, List.forall₂_same]
      intro s hs
      have hmem : s ∈ segments := List.mem_mergeSort.mp hs
      exact presents_mapping (hlines s hmem) (htables s hmem)

/-- The document with two segments at one place, behind a root with two slashes at its end and with
more texts than sources. -/
def surplusDocument : MapDocument :=
  { tiedDocument with
    sourceRoot := some "root//"
    sourcesContent := some [none, some "b", some "c"] }

/-- The document with two segments at one place, without the name of the second one. -/
def namelessDocument : MapDocument := { tiedDocument with names := [] }

/-- The text beyond the sources does no harm, and the missing name is the error. -/
theorem ofDocument_surplusDocument :
    surplusDocument.LinesFit ∧ namelessDocument.LinesFit ∧
      (∃ m, ofDocument surplusDocument = .ok m ∧ m.mappings.length = 4 ∧
        (surplusDocument.tables tiedSegments).Answers m) ∧
      ofDocument namelessDocument = .error (.nameOutOfRange 0) := by
  have hdecode : MappingText.decode tiedDocument.mappings = .ok tiedSegments := by
    decide +kernel
  have hlines : ∀ s ∈ tiedSegments, s.LinesFit := by
    simp [tiedSegments, Segment.LinesFit, UInt32.size]
  have hfit : surplusDocument.LinesFit := MapDocument.linesFit_of_decode hdecode hlines
  have hfit' : namelessDocument.LinesFit := MapDocument.linesFit_of_decode hdecode hlines
  obtain ⟨hok, -, hanswers⟩ := ofDocument_checked hfit
  refine ⟨hfit, hfit', ?_, ?_⟩
  · obtain ⟨m, hm⟩ := hok.mpr ⟨tiedSegments, hdecode, by
      simp [tiedSegments, Segment.InBounds, surplusDocument, tiedDocument]⟩
    obtain ⟨segments, hsegments, hlength, -, htables⟩ := hanswers m hm
    obtain rfl := Except.ok.inj (hdecode.symm.trans hsegments)
    exact ⟨m, hm, hlength, htables⟩
  · -- The first segment is in bounds, and the second has a source and no name
    refine ((ofDocument_checked hfit').2.1 _).mpr
      (@MapDocument.Fault.segment _ [_] _ _ _ hdecode ?_ ?_)
    · simp [Segment.InBounds, namelessDocument, tiedDocument]
    · exact .name rfl (by simp [namelessDocument, tiedDocument]) rfl
        (by simp [namelessDocument, tiedDocument])

end SourceMap

end MapChain
