import Mathlib.Data.List.Forall2
import MapChain.Proofs.Builder.Tables

/-!
# What a document lists of the calls

The tables of a document that was built list what the calls used: every source and every name once,
in the order of first use, with the last text that was set for each source. The mappings that were
added refer to their sources and names by places in these tables.

## Layers

- **Tables**: `ListsFirstUses` says what a table is of its uses, without the loop that makes it.
- **Texts**: which sources have a text, and when there is a list of texts at all.
- **Places**: `Call.KeptAs`, a mapping that was added and how it is kept.
- **Statement**: `run_tabulates`.
-/

namespace MapChain.MapBuilder

/-! ## Tables -/

/-- A table lists what is used, each of it once, in the order of first use. -/
structure ListsFirstUses (uses entries : List String) : Prop where
  nodup : entries.Nodup
  mem_iff : ∀ s, s ∈ entries ↔ s ∈ uses
  order : ∀ a ∈ uses, ∀ b ∈ uses,
    entries.idxOf a ≤ entries.idxOf b ↔ uses.idxOf a ≤ uses.idxOf b

theorem listsFirstUses_table (uses : List String) : ListsFirstUses uses (table uses) where
  nodup := nodup_table uses
  mem_iff _ := mem_table
  order _ ha _ hb := idxOf_table_le_iff ha hb

/-! ## Texts -/

/-- The list of texts, which there is when some source has one. -/
theorem sourcesContent_run (file : Option String) (calls : List Call) :
    (run file calls).toDocument.sourcesContent =
      if (sourceTable calls).any fun s => (lastText calls s).isSome then
        some ((sourceTable calls).map (lastText calls))
      else none := by
  rw [toDocument, run_eq]
  simp only [files, List.any_map, List.map_map]
  rfl

/-- There is no list of texts when no text was set. -/
theorem sourcesContent_run_eq_none_iff {file : Option String} {calls : List Call} :
    (run file calls).toDocument.sourcesContent = none ↔
      ∀ source content, .setContent source content ∉ calls := by
  rw [sourcesContent_run]
  simp only [ite_eq_right_iff, reduceCtorEq, imp_false, List.any_eq_true, not_exists, not_and,
    Option.not_isSome_iff_eq_none, lastText_eq_none_iff]
  constructor
  · intro h source content hc
    exact h source (mem_table.mpr (List.mem_filterMap.mpr ⟨_, hc, rfl⟩)) content hc
  · intro h source _
    exact h source

/-! ## Places -/

/-- A string stands in a table at a place that 32 bits can tell. -/
def StandsAt (entries : List String) (s : String) (i : Nat) : Prop :=
  i < UInt32.size ∧ entries[i]? = some s

theorem standsAt_idxOf_table {uses : List String} {s : String} (hs : s ∈ uses)
    (hlength : (table uses).length ≤ UInt32.size) :
    StandsAt (table uses) s ((table uses).idxOf s) :=
  ⟨Nat.lt_of_lt_of_le (idxOf_table_lt hs) hlength, table_getElem?_idxOf hs⟩

namespace Call

/-- Whether a call adds a mapping. -/
def adds : Call → Bool
  | add .. => true
  | setContent .. => false

/-- How a call's mapping is kept: where it was added, with the places of the very source and name
that it was added with. Without an origin the name is not kept. -/
inductive KeptAs (sources names : List String) : Call → PendingMapping → Prop
  | unmapped {generated : Position} {name : Option String} :
    KeptAs sources names (.add generated none name) ⟨generated, none, none⟩
  | mapped {generated position : Position} {source : String} {name : Option String} {i : Nat}
    {j : Option Nat} (hsource : StandsAt sources source i)
    (hname : Option.Rel (StandsAt names) name j) :
    KeptAs sources names (.add generated (some (source, position)) name)
      ⟨generated, some (i, position), j⟩

end Call

/-- The mappings that calls add are kept one by one, in the order of the calls. -/
theorem keptAs_pendingMappings {calls : List Call}
    (hsources : (sourceTable calls).length ≤ UInt32.size)
    (hnames : (nameTable calls).length ≤ UInt32.size) :
    List.Forall₂ (Call.KeptAs (sourceTable calls) (nameTable calls)) (calls.filter Call.adds)
      (pendingMappings calls) := by
  -- Call by call, with the tables of all calls
  suffices hpart : ∀ part : List Call, part ⊆ calls →
      List.Forall₂ (Call.KeptAs (sourceTable calls) (nameTable calls)) (part.filter Call.adds)
        (part.filterMap (Call.pending? (sourceTable calls) (nameTable calls))) from
    hpart calls (List.Subset.refl calls)
  intro part hsubset
  induction part with
  | nil => exact .nil
  | cons c rest ih =>
    obtain ⟨hc, hrest⟩ := List.cons_subset.mp hsubset
    have hkept := ih hrest
    cases c with
    | setContent => exact hkept
    | add generated origin name =>
      cases origin with
      | none => exact .cons .unmapped hkept
      | some origin =>
        obtain ⟨source, position⟩ := origin
        have hsource := standsAt_idxOf_table (List.mem_filterMap.mpr ⟨_, hc, rfl⟩) hsources
        refine .cons (.mapped hsource ?_) hkept
        cases name with
        | none => exact .none
        | some name =>
          exact .some (standsAt_idxOf_table (List.mem_filterMap.mpr ⟨_, hc, rfl⟩) hnames)

/-! ## Statement -/

/-- What a builder and its document hold of some calls. -/
structure Tabulates (b : MapBuilder) (calls : List Call) : Prop where
  sources : ListsFirstUses (calls.filterMap Call.source?) b.toDocument.sources
  names : ListsFirstUses (calls.filterMap Call.name?) b.toDocument.names
  sourcesContent_none : b.toDocument.sourcesContent = none ↔
    ∀ source content, .setContent source content ∉ calls
  sourcesContent_some : ∀ contents, b.toDocument.sourcesContent = some contents →
    contents.length = b.toDocument.sources.length ∧
      ∀ (i : Nat) (source : String), b.toDocument.sources[i]? = some source →
        contents[i]? = some (lastText calls source)
  pending : List.Forall₂ (Call.KeptAs b.toDocument.sources b.toDocument.names)
    (calls.filter Call.adds) b.pending.toList

/-- **The tables of a builder** after any calls with no more than `2 ^ 32` different sources and
names. Sources and names are listed without repetition in the order of first use, and no others are;
there are texts when one was set, and then each source has the last one set for it; and every
mapping that was added is kept with the places of its source and its name. -/
theorem run_tabulates (file : Option String) (calls : List Call)
    (hsources : (calls.filterMap Call.source?).dedup.length ≤ UInt32.size)
    (hnames : (calls.filterMap Call.name?).dedup.length ≤ UInt32.size) :
    (run file calls).Tabulates calls := by
  have hpending : (run file calls).pending.toList = pendingMappings calls := by rw [run_eq]
  refine {
    sources := sources_run file calls ▸ listsFirstUses_table _
    names := names_run file calls ▸ listsFirstUses_table _
    sourcesContent_none := sourcesContent_run_eq_none_iff
    sourcesContent_some := ?_
    pending := ?_ }
  · intro contents hcontents
    rw [sourcesContent_run, Option.ite_none_right_eq_some] at hcontents
    obtain ⟨-, hcontents⟩ := hcontents
    cases hcontents
    rw [sources_run]
    refine ⟨List.length_map _, fun i source hsource => ?_⟩
    rw [List.getElem?_map, hsource, Option.map_some]
  · rw [sources_run, names_run, hpending]
    apply keptAs_pendingMappings
    · rw [sourceTable, length_table]
      exact hsources
    · rw [nameTable, length_table]
      exact hnames

/-- A source without a name of its own, a string that is both a source and a name, a name that is
lost, and a text that is set again after the source was used. -/
def mixedCalls : List Call :=
  [.add ⟨3, 0⟩ (some ("x", ⟨1, 0⟩)) (some "x"), .setContent "" "old",
    .add ⟨1, 0⟩ none (some "lost"), .add ⟨2, 4⟩ (some ("", ⟨9, 9⟩)) (some "y"),
    .setContent "" "new", .add ⟨2, 4⟩ (some ("x", ⟨1, 2⟩)) (some "y")]

theorem run_tabulates_mixedCalls :
    (run none mixedCalls).Tabulates mixedCalls ∧
      (run none mixedCalls).toDocument.sources = ["x", ""] ∧
      (run none mixedCalls).toDocument.names = ["x", "y"] ∧
      (run none mixedCalls).toDocument.sourcesContent = some [none, some "new"] :=
  ⟨run_tabulates none mixedCalls (by decide) (by decide), by decide, by decide, by decide⟩

end MapChain.MapBuilder
