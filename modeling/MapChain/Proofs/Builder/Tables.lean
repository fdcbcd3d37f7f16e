import Mathlib.Data.List.Dedup
import Mathlib.Data.List.Induction
import MapChain.SourceMap.Builder

/-!
# The tables of a builder

What a builder holds after a sequence of calls, in closed form: each table lists what was used in
the order of first use, every mapping refers to it by place, and every source has the last text that
was set for it.

## Layers

- **Tables**: `enter` adds to a table what it does not have, and `table` does so for a list of uses.
  Places in a table stay as it grows (`idxOf_enter_of_mem`).
- **Interning**: `internName_eq` and `internSource_eq` say that interning enters and finds the place.
- **Calls**: `run_eq` is the state after any sequence of calls, by induction on its last call, and
  `sources_run` and `names_run` are the tables of its document.
-/

namespace MapChain.MapBuilder

/-! ## Tables -/

/-- A table with one more entry, unless it has it already. -/
def enter (entries : List String) (s : String) : List String :=
  if s ∈ entries then entries else entries ++ [s]

/-- The table of some uses in the order of first use. -/
def table (uses : List String) : List String := uses.foldl enter []

theorem enter_of_mem {entries : List String} {s : String} (h : s ∈ entries) :
    enter entries s = entries := if_pos h

theorem enter_of_notMem {entries : List String} {s : String} (h : s ∉ entries) :
    enter entries s = entries ++ [s] := if_neg h

@[simp] theorem mem_enter {entries : List String} {s x : String} :
    x ∈ enter entries s ↔ x ∈ entries ∨ x = s := by
  by_cases h : s ∈ entries
  · rw [enter_of_mem h]
    constructor
    · exact .inl
    · rintro (hx | rfl)
      · exact hx
      · exact h
  · rw [enter_of_notMem h, List.mem_append, List.mem_singleton]

theorem nodup_enter {entries : List String} {s : String} (h : entries.Nodup) :
    (enter entries s).Nodup := by
  by_cases hs : s ∈ entries
  · rwa [enter_of_mem hs]
  · rw [enter_of_notMem hs]
    exact h.append (List.nodup_singleton s) (by simpa using hs)

theorem idxOf_enter_of_mem {entries : List String} {s x : String} (h : x ∈ entries) :
    (enter entries s).idxOf x = entries.idxOf x := by
  by_cases hs : s ∈ entries
  · rw [enter_of_mem hs]
  · rw [enter_of_notMem hs, List.idxOf_append_of_mem h]

/-- What is entered gets the place that it has or would have next. -/
theorem idxOf_enter_self (entries : List String) (s : String) :
    (enter entries s).idxOf s = entries.idxOf s := by
  by_cases hs : s ∈ entries
  · rw [enter_of_mem hs]
  · rw [enter_of_notMem hs, List.idxOf_append_of_notMem hs, List.idxOf_eq_length hs]
    simp

@[simp] theorem table_nil : table [] = [] := rfl

@[simp] theorem table_append_singleton (uses : List String) (s : String) :
    table (uses ++ [s]) = enter (table uses) s := by
  rw [table, List.foldl_append]
  rfl

@[simp] theorem mem_table {uses : List String} {x : String} : x ∈ table uses ↔ x ∈ uses := by
  induction uses using List.reverseRecOn with
  | nil => simp
  | append_singleton uses s ih => simp [ih]

theorem nodup_table (uses : List String) : (table uses).Nodup := by
  induction uses using List.reverseRecOn with
  | nil => exact List.nodup_nil
  | append_singleton uses s ih =>
    rw [table_append_singleton]
    exact nodup_enter ih

/-- A table has as many entries as there are different uses. -/
theorem length_table (uses : List String) : (table uses).length = uses.dedup.length := by
  refine (List.Perm.length_eq ?_)
  rw [List.perm_ext_iff_of_nodup (nodup_table uses) (List.nodup_dedup uses)]
  simp

theorem table_eq_singleton {uses : List String} {s : String} (h : ∀ x ∈ uses, x = s)
    (hs : s ∈ uses) : table uses = [s] := by
  rw [← List.perm_singleton, List.perm_ext_iff_of_nodup (nodup_table uses) (List.nodup_singleton s)]
  intro x
  rw [mem_table, List.mem_singleton]
  constructor
  · exact h x
  · rintro rfl
    exact hs

theorem idxOf_table_lt {uses : List String} {s : String} (h : s ∈ uses) :
    (table uses).idxOf s < (table uses).length :=
  List.idxOf_lt_length_iff.mpr (mem_table.mpr h)

theorem table_getElem?_idxOf {uses : List String} {s : String} (h : s ∈ uses) :
    (table uses)[(table uses).idxOf s]? = some s := by
  rw [List.getElem?_eq_getElem (idxOf_table_lt h), List.getElem_idxOf]

/-- A table keeps the order of first use. -/
theorem idxOf_table_le_iff {uses : List String} {a b : String} (ha : a ∈ uses) (hb : b ∈ uses) :
    (table uses).idxOf a ≤ (table uses).idxOf b ↔ uses.idxOf a ≤ uses.idxOf b := by
  induction uses using List.reverseRecOn with
  | nil => cases ha
  | append_singleton uses s ih =>
    -- What was used before comes before what is new
    have hbefore : ∀ x ∈ uses, (table uses).idxOf x < (table uses).length ∧
        uses.idxOf x < uses.length := fun x hx =>
      ⟨idxOf_table_lt hx, List.idxOf_lt_length_iff.mpr hx⟩
    have hold : ∀ x ∈ uses, (enter (table uses) s).idxOf x = (table uses).idxOf x ∧
        (uses ++ [s]).idxOf x = uses.idxOf x := fun x hx =>
      ⟨idxOf_enter_of_mem (mem_table.mpr hx), List.idxOf_append_of_mem hx⟩
    have hnew : ∀ x ∈ uses ++ [s], x ∉ uses → x = s ∧
        (enter (table uses) s).idxOf x = (table uses).length ∧
        (uses ++ [s]).idxOf x = uses.length := by
      intro x hx hnot
      obtain rfl : x = s := by simpa [hnot] using hx
      refine ⟨rfl, ?_, ?_⟩
      · rw [idxOf_enter_self, List.idxOf_eq_length (mem_table.not.mpr hnot)]
      · rw [List.idxOf_append_of_notMem hnot]
        simp
    rw [table_append_singleton]
    by_cases ha' : a ∈ uses <;> by_cases hb' : b ∈ uses
    · rw [(hold a ha').1, (hold a ha').2, (hold b hb').1, (hold b hb').2, ih ha' hb']
    · rw [(hold a ha').1, (hold a ha').2, (hnew b hb hb').2.1, (hnew b hb hb').2.2]
      exact iff_of_true (Nat.le_of_lt (hbefore a ha').1) (Nat.le_of_lt (hbefore a ha').2)
    · rw [(hold b hb').1, (hold b hb').2, (hnew a ha ha').2.1, (hnew a ha ha').2.2]
      exact iff_of_false (Nat.not_le_of_lt (hbefore b hb').1) (Nat.not_le_of_lt (hbefore b hb').2)
    · rw [(hnew a ha ha').1, (hnew b hb hb').1]
      exact iff_of_true (Nat.le_refl _) (Nat.le_refl _)

/-! ## Interning -/

theorem internName_eq (names : List String) (name : String) :
    internName names name = (enter names name, names.idxOf name) := by
  rw [internName, List.findIdx?_eq_guard_findIdx_lt]
  by_cases h : name ∈ names
  · rw [enter_of_mem h, Option.guard_pos (by simpa using h)]
    rfl
  · rw [enter_of_notMem h, Option.guard_eq_none_iff.mpr (by simpa using h),
      List.idxOf_eq_length h]

theorem internSource_eq (sources : List SourceFile) (source : String) :
    internSource sources source =
      (if source ∈ sources.map (·.name) then sources else sources ++ [⟨source, none⟩],
        (sources.map (·.name)).idxOf source) := by
  have hidx : sources.findIdx (·.name == source) = (sources.map (·.name)).idxOf source := by
    rw [List.idxOf, List.findIdx_map]
    rfl
  rw [internSource, List.findIdx?_eq_guard_findIdx_lt, hidx]
  by_cases h : source ∈ sources.map (·.name)
  · have hlt := List.idxOf_lt_length_iff.mpr h
    rw [List.length_map] at hlt
    rw [if_pos h, Option.guard_pos (by simpa using hlt)]
  · have hlength : (sources.map (·.name)).idxOf source = sources.length := by
      rw [List.idxOf_eq_length h, List.length_map]
    rw [if_neg h, hlength, Option.guard_eq_none_iff.mpr (by simp)]

/-! ## Files -/

/-- The sources of a table with their texts. -/
def files (entries : List String) (text : String → Option String) : List SourceFile :=
  entries.map fun s => ⟨s, text s⟩

@[simp] theorem map_name_files (entries : List String) (text : String → Option String) :
    (files entries text).map (·.name) = entries := by
  rw [files, List.map_map]
  exact List.map_id entries

theorem internSource_files {entries : List String} {text : String → Option String} {s : String}
    (h : s ∉ entries → text s = none) :
    internSource (files entries text) s = (files (enter entries s) text, entries.idxOf s) := by
  rw [internSource_eq, map_name_files]
  by_cases hs : s ∈ entries
  · rw [if_pos hs, enter_of_mem hs]
  · rw [if_neg hs, enter_of_notMem hs, files, files, List.map_append, List.map_singleton, h hs]

/-- Setting a text at the place of a source sets the text of this source. -/
theorem modify_files {entries : List String} (hnodup : entries.Nodup)
    (text : String → Option String) (s content : String) :
    ((files entries text).modify (entries.idxOf s) fun f => { f with content := some content }) =
      files entries fun x => if x = s then some content else text x := by
  -- Entry by entry: a source occurs once, so its place tells it from the others
  apply List.ext_getElem?
  intro i
  rw [files, files, List.getElem?_modify, List.getElem?_map, List.getElem?_map]
  cases hi : entries[i]? with
  | none => rfl
  | some x =>
    obtain ⟨hlt, rfl⟩ := List.getElem?_eq_some_iff.mp hi
    by_cases hx : entries[i] = s
    · subst hx
      simp [hnodup.idxOf_getElem i hlt]
    · have hplace : entries.idxOf s ≠ i := by
        rintro rfl
        exact hx (List.getElem_idxOf hlt)
      simp [hx, hplace]

/-! ## Calls -/

/-- A call that changes a builder. -/
inductive Call where
  | add (generated : Position) (origin : Option (String × Position)) (name : Option String)
  | setContent (source content : String)

namespace Call

/-- What a call does to a builder. -/
def apply (b : MapBuilder) : Call → MapBuilder
  | add generated origin name => b.add generated origin name
  | setContent source content => b.setContent source content

/-- The source that a call uses. -/
def source? : Call → Option String
  | add _ origin _ => origin.map (·.1)
  | setContent source _ => some source

/-- The name that a call uses, which needs an origin. -/
def name? : Call → Option String
  | add _ (some _) name => name
  | _ => none

/-- The text that a call sets for a source. -/
def text? (source : String) : Call → Option String
  | add .. => none
  | setContent source' content => if source' = source then some content else none

/-- The mapping that a call adds, with places in the tables. -/
def pending? (sources names : List String) : Call → Option PendingMapping
  | add generated none _ => some ⟨generated, none, none⟩
  | add generated (some (source, position)) name =>
    some ⟨generated, some (sources.idxOf source, position), name.map names.idxOf⟩
  | setContent .. => none

/-- Only the places that a call uses matter for its mapping. -/
theorem pending?_congr {c : Call} {sources names sources' names' : List String}
    (hsource : ∀ s ∈ c.source?, sources'.idxOf s = sources.idxOf s)
    (hname : ∀ n ∈ c.name?, names'.idxOf n = names.idxOf n) :
    c.pending? sources' names' = c.pending? sources names := by
  cases c with
  | setContent source content => rfl
  | add generated origin name =>
    cases origin with
    | none => rfl
    | some origin =>
      obtain ⟨source, position⟩ := origin
      rw [pending?, pending?, hsource source rfl]
      cases name with
      | none => rfl
      | some n => rw [Option.map_some, Option.map_some, hname n rfl]

end Call

/-- The builder after some calls. -/
def run (file : Option String) (calls : List Call) : MapBuilder :=
  calls.foldl Call.apply (empty file)

/-- The sources that calls use in the order of first use. -/
def sourceTable (calls : List Call) : List String := table (calls.filterMap Call.source?)

/-- The names that calls use in the order of first use. -/
def nameTable (calls : List Call) : List String := table (calls.filterMap Call.name?)

/-- The last text that calls set for a source. -/
def lastText (calls : List Call) (source : String) : Option String :=
  (calls.filterMap (Call.text? source)).getLast?

theorem nodup_sourceTable (calls : List Call) : (sourceTable calls).Nodup := nodup_table _

theorem sourceTable_append_singleton (calls : List Call) (c : Call) :
    sourceTable (calls ++ [c]) =
      c.source?.elim (sourceTable calls) (enter (sourceTable calls)) := by
  cases h : c.source? <;> simp [sourceTable, List.filterMap_append, h]

theorem nameTable_append_singleton (calls : List Call) (c : Call) :
    nameTable (calls ++ [c]) = c.name?.elim (nameTable calls) (enter (nameTable calls)) := by
  cases h : c.name? <;> simp [nameTable, List.filterMap_append, h]

theorem lastText_append_singleton (calls : List Call) (c : Call) (s : String) :
    lastText (calls ++ [c]) s = (c.text? s).or (lastText calls s) := by
  cases h : c.text? s <;> simp [lastText, List.filterMap_append, h]

/-- A source has no text when none was set for it. -/
theorem lastText_eq_none_iff {calls : List Call} {source : String} :
    lastText calls source = none ↔ ∀ content, .setContent source content ∉ calls := by
  rw [lastText, List.getLast?_eq_none_iff, List.filterMap_eq_nil_iff]
  constructor
  · intro h content hc
    simpa [Call.text?] using h _ hc
  · intro h c hc
    cases c with
    | add => rfl
    | setContent source' content =>
      refine if_neg ?_
      rintro rfl
      exact h content hc

/-- A source that is not used has no text. -/
theorem lastText_of_notMem {calls : List Call} {s : String} (h : s ∉ sourceTable calls) :
    lastText calls s = none := by
  refine lastText_eq_none_iff.mpr fun content hc => ?_
  exact h (mem_table.mpr (List.mem_filterMap.mpr ⟨_, hc, rfl⟩))

/-- The mappings that calls add, with places in the tables. -/
def pendingMappings (calls : List Call) : List PendingMapping :=
  calls.filterMap (Call.pending? (sourceTable calls) (nameTable calls))

/-- One more call adds its mapping and leaves the others as they are. -/
theorem pendingMappings_append_singleton (calls : List Call) (c : Call) :
    pendingMappings (calls ++ [c]) = pendingMappings calls ++
      (c.pending? (sourceTable (calls ++ [c])) (nameTable (calls ++ [c]))).toList := by
  -- The tables grow, but what was entered before keeps its place
  have hstay : calls.filterMap
      (Call.pending? (sourceTable (calls ++ [c])) (nameTable (calls ++ [c]))) =
        pendingMappings calls := by
    apply List.filterMap_congr
    intro c' hc'
    apply Call.pending?_congr
    · intro s hs
      have hmem : s ∈ sourceTable calls := mem_table.mpr (List.mem_filterMap.mpr ⟨c', hc', hs⟩)
      rw [sourceTable_append_singleton]
      cases c.source? with
      | none => rfl
      | some s' => exact idxOf_enter_of_mem hmem
    · intro n hn
      have hmem : n ∈ nameTable calls := mem_table.mpr (List.mem_filterMap.mpr ⟨c', hc', hn⟩)
      rw [nameTable_append_singleton]
      cases c.name? with
      | none => rfl
      | some n' => exact idxOf_enter_of_mem hmem
  rw [pendingMappings, List.filterMap_append, hstay]
  rfl

/-- Adding a mapping whose origin is known enters its source, and its name if it has one. -/
private theorem add_some (b : MapBuilder) (generated position : Position) (source : String)
    (name : Option String) :
    b.add generated (some (source, position)) name =
      { b with
        sources := (internSource b.sources source).1
        names := name.elim b.names (enter b.names)
        pending := b.pending.push ⟨generated,
          some ((internSource b.sources source).2, position), name.map b.names.idxOf⟩ } := by
  cases name with
  | none => rfl
  | some name =>
    rw [MapBuilder.add.eq_def]
    simp only [internName_eq]
    rfl

/-- **The state of a builder** after any calls. -/
theorem run_eq (file : Option String) (calls : List Call) :
    run file calls =
      { file
        sources := files (sourceTable calls) (lastText calls)
        names := nameTable calls
        pending := (pendingMappings calls).toArray } := by
  -- On the last call, since the tables are those of all calls so far
  induction calls using List.reverseRecOn with
  | nil => rfl
  | append_singleton calls c ih =>
    have hrun : run file (calls ++ [c]) = c.apply (run file calls) := by
      rw [run, List.foldl_append]
      rfl
    have htext : lastText (calls ++ [c]) = fun s => (c.text? s).or (lastText calls s) :=
      funext (lastText_append_singleton calls c)
    rw [hrun, ih, pendingMappings_append_singleton, sourceTable_append_singleton,
      nameTable_append_singleton, htext]
    cases c with
    | setContent source content =>
      -- The call decides about the text of its source only
      have hset : (fun s => (Call.text? s (.setContent source content)).or (lastText calls s)) =
          fun s => if s = source then some content else lastText calls s := by
        funext s
        by_cases hs : s = source
        · simp [Call.text?, hs]
        · simp [Call.text?, hs, Ne.symm hs]
      have hmodify := modify_files (nodup_enter (s := source) (nodup_sourceTable calls))
        (lastText calls) source content
      rw [idxOf_enter_self] at hmodify
      rw [hset, Call.apply, MapBuilder.setContent, internSource_files lastText_of_notMem]
      simp [Call.source?, Call.name?, Call.pending?, hmodify]
    | add generated origin name =>
      have hkeep : (fun s => (Call.text? s (.add generated origin name)).or (lastText calls s)) =
          lastText calls := rfl
      rw [hkeep, Call.apply]
      cases origin with
      | none => simp [MapBuilder.add, Call.source?, Call.name?, Call.pending?]
      | some origin =>
        obtain ⟨source, position⟩ := origin
        rw [add_some, internSource_files lastText_of_notMem]
        cases name with
        | none => simp [Call.source?, Call.name?, Call.pending?, idxOf_enter_self]
        | some name => simp [Call.source?, Call.name?, Call.pending?, idxOf_enter_self]

theorem sources_run (file : Option String) (calls : List Call) :
    (run file calls).toDocument.sources = sourceTable calls := by
  rw [run_eq]
  exact map_name_files _ _

theorem names_run (file : Option String) (calls : List Call) :
    (run file calls).toDocument.names = nameTable calls := by
  rw [run_eq]
  rfl

end MapChain.MapBuilder
