import MapChain.Config.Resolve
import MapChain.Proofs.Config.Layers

/-!
# Forced options

Composition depends on three options, and whatever a project writes they are as they have to be once
its configuration is resolved. Nothing else is touched: every other option is the one that the merged
document has, in the same order, and the document itself keeps what was written.

## Layers

- **Setting and removing**: what happens to the order of options, and to those of other names.
- **Forcing**: `IsForced` says what it does to options, all at once; and that it changes nothing
  when it is done again.
- **Resolving**: `resolve_of_load` and what a document amounts to; `IsResolved` says it of a
  configuration.

Main result: `resolve_forces`.
-/

namespace MapChain

namespace CompilerOptions

/-! ## Setting and removing -/

/-- The names of options, in their order. -/
def names (o : CompilerOptions) : List String := Fields.names o.entries

theorem mem_names_iff {o : CompilerOptions} {name : String} :
    name ∈ o.names ↔ (o.get? name).isSome :=
  Fields.isSome_get?_iff.symm

/-- Setting an option to the value that it has changes nothing. -/
theorem insertEntry_of_lookup {entries : List (String × Json)} {name : String} {value : Json}
    (h : entries.lookup name = some value) : insertEntry name value entries = entries := by
  induction entries with
  | nil => cases h
  | cons entry entries ih =>
    obtain ⟨n, v⟩ := entry
    rw [Association.lookup_cons] at h
    unfold insertEntry
    by_cases hn : n = name
    · subst hn
      simp at h
      simp [h]
    · rw [if_neg (Ne.symm hn)] at h
      rw [if_neg hn, ih h]

/-- An option that is set keeps its place, and a new one is the last. -/
theorem names_insertEntry (name : String) (value : Json) (entries : List (String × Json)) :
    Fields.names (insertEntry name value entries) =
      if name ∈ Fields.names entries then Fields.names entries
      else Fields.names entries ++ [name] := by
  induction entries with
  | nil => simp [insertEntry]
  | cons entry entries ih =>
    obtain ⟨n, v⟩ := entry
    unfold insertEntry
    by_cases hn : n = name
    · simp [hn]
    · have hne : name ≠ n := Ne.symm hn
      simp only [if_neg hn, Fields.names_cons, ih, List.mem_cons, hne, false_or]
      split <;> simp

/-- Setting an option changes no entry of another name. -/
theorem filter_insertEntry (keep : String → Bool) {name : String} (h : keep name = false)
    (value : Json) (entries : List (String × Json)) :
    (insertEntry name value entries).filter (keep ·.1) = entries.filter (keep ·.1) := by
  induction entries with
  | nil => simp [insertEntry, h]
  | cons entry entries ih =>
    obtain ⟨n, v⟩ := entry
    unfold insertEntry
    by_cases hn : n = name
    · simp [hn, h]
    · rw [if_neg hn, List.filter_cons, List.filter_cons, ih]

theorem nodup_names_insert {o : CompilerOptions} (h : o.names.Nodup) (name : String)
    (value : Json) : (o.insert name value).names.Nodup := by
  simp only [names, insert, names_insertEntry]
  split
  · exact h
  next hmem => exact List.nodup_append.mpr ⟨h, List.nodup_singleton name, by
      simpa using fun n hn => (ne_of_mem_of_not_mem hn hmem)⟩

theorem nodup_names_erase {o : CompilerOptions} (h : o.names.Nodup) (name : String) :
    (o.erase name).names.Nodup :=
  (List.filter_sublist.map Prod.fst).nodup h

/-- Removing an option that is not there changes nothing. -/
theorem erase_of_notMem {o : CompilerOptions} {name : String} (h : name ∉ o.names) :
    o.erase name = o := by
  obtain ⟨entries⟩ := o
  have hall : ∀ entry ∈ entries, (entry.1 != name) = true := by
    intro entry hentry
    rw [bne_iff_ne]
    rintro rfl
    exact h (List.mem_map.mpr ⟨entry, hentry, rfl⟩)
  rw [erase, List.filter_eq_self.mpr hall]

/-! ## Forcing -/

/-- The names of the options that are forced. -/
def forcedNames : List String := ["sourceMap", "inlineSources", "inlineSourceMap"]

/-- The entries of options that are not forced. -/
def untouched (o : CompilerOptions) : List (String × Json) :=
  o.entries.filter fun entry => entry.1 ∉ forcedNames

/-- Options that are forced from others: maps are written, with the sources in them, and not into
the text; all other options are as they were, in their order. Forcing these changes nothing. -/
structure IsForced (written forced : CompilerOptions) : Prop where
  maps : forced.get? "sourceMap" = some (.bool true)
  sources : forced.get? "inlineSources" = some (.bool true)
  notInline : forced.get? "inlineSourceMap" = none
  others : ∀ name, name ∉ forcedNames → forced.get? name = written.get? name
  order : forced.untouched = written.untouched
  again : forced.forced = forced

theorem get?_forced (o : CompilerOptions) (name : String) :
    o.forced.get? name =
      if name = "inlineSourceMap" then none
      else if name = "inlineSources" then some (.bool true)
      else if name = "sourceMap" then some (.bool true)
      else o.get? name := by
  rw [forced, get?_erase, get?_insert, get?_insert]

/-- Options that are as they have to be are not changed by forcing them. -/
theorem forced_eq_self {o : CompilerOptions} (hmaps : o.get? "sourceMap" = some (.bool true))
    (hsources : o.get? "inlineSources" = some (.bool true))
    (hinline : o.get? "inlineSourceMap" = none) : o.forced = o := by
  have hinsert {name : String} (h : o.get? name = some (.bool true)) :
      o.insert name (.bool true) = o := by
    rw [insert, insertEntry_of_lookup h]
  have hnotMem : "inlineSourceMap" ∉ o.names := by
    simp [mem_names_iff, hinline]
  rw [forced, hinsert hmaps, hinsert hsources, erase_of_notMem hnotMem]

theorem nodup_names_forced {o : CompilerOptions} (h : o.names.Nodup) : o.forced.names.Nodup := by
  rw [forced]
  apply nodup_names_erase
  apply nodup_names_insert
  exact nodup_names_insert h _ _

theorem untouched_insert {name : String} (h : name ∈ forcedNames) (o : CompilerOptions)
    (value : Json) : (o.insert name value).untouched = o.untouched := by
  apply filter_insertEntry fun n => decide (n ∉ forcedNames)
  simpa using h

theorem untouched_erase {name : String} (h : name ∈ forcedNames) (o : CompilerOptions) :
    (o.erase name).untouched = o.untouched := by
  rw [untouched, erase, List.filter_filter]
  refine List.filter_congr fun entry _ => ?_
  -- An entry that is kept has another name
  by_cases hname : entry.1 ∈ forcedNames
  · simp [hname]
  · have hne : entry.1 ≠ name := fun heq => hname (heq ▸ h)
    simp [hname, hne]

/-- What forcing does to options. -/
theorem isForced_forced (o : CompilerOptions) : IsForced o o.forced where
  maps := by simp [get?_forced]
  sources := by simp [get?_forced]
  notInline := by simp [get?_forced]
  others name hname := by
    simp only [forcedNames, List.mem_cons, List.not_mem_nil, or_false, not_or] at hname
    simp [get?_forced, hname]
  order := by
    rw [forced, untouched_erase (by simp [forcedNames]), untouched_insert (by simp [forcedNames]),
      untouched_insert (by simp [forcedNames])]
  again := by
    apply forced_eq_self
    · simp [get?_forced]
    · simp [get?_forced]
    · simp [get?_forced]

end CompilerOptions

namespace Config

/-! ## Resolving -/

/-- The options that a document is written with, where they are an object. -/
def writtenOptions (document : Fields) : CompilerOptions :=
  ⟨((document.get? optionsMember).bind Json.fields?).getD []⟩

theorem get?_writtenOptions (document : Fields) (name : String) :
    (writtenOptions document).get? name = option? document name := by
  rw [writtenOptions, option?]
  cases (document.get? optionsMember).bind Json.fields? <;> rfl

theorem optionsOf?_eq_some_iff {document : Fields} {options : CompilerOptions} :
    optionsOf? document = some options ↔ HasOptions document ∧ options = writtenOptions document := by
  rw [optionsOf?, HasOptions, writtenOptions]
  cases document.get? optionsMember with
  | none => simp [CompilerOptions.empty, eq_comm]
  | some v => cases v <;> simp [CompilerOptions.ofFields, Json.fields?, eq_comm]

theorem ofDocument_of_hasOptions {document : Fields} (h : HasOptions document) (path : Path) :
    ofDocument path document =
      .ok ⟨path, document, (writtenOptions document).forced, (writtenOptions document).advisories⟩ := by
  rw [ofDocument, optionsOf?_eq_some_iff.mpr ⟨h, rfl⟩]

theorem ofDocument_of_not_hasOptions {document : Fields} (h : ¬ HasOptions document) (path : Path) :
    ofDocument path document = .error (.parse path .badOptions) := by
  have hnone : optionsOf? document = none := by
    apply Option.eq_none_iff_forall_ne_some.mpr
    intro options hsome
    exact h (optionsOf?_eq_some_iff.mp hsome).1
  rw [ofDocument, hnone]

/-- Once its document is located and loaded, a configuration is what the document amounts to. -/
theorem resolve_of_load {fs : FileSystem} {r : Resolver} {path : Path} {document : Fields}
    (hpath : locate fs r = .ok path) (hload : load fs path = .ok document) :
    resolve fs r = ofDocument path document := by
  simp only [resolve, hpath, hload]

theorem exists_load_of_resolve {fs : FileSystem} {r : Resolver} {c : ResolvedConfig}
    (h : resolve fs r = .ok c) :
    ∃ path document, locate fs r = .ok path ∧ load fs path = .ok document := by
  unfold resolve at h
  split at h
  next => cases h
  next path hpath =>
    split at h
    next => cases h
    next document hload => exact ⟨path, document, hpath, hload⟩

/-- A configuration as it has to be for its document: the document is the one that was found, merged
with all that it extends, and its options are forced from those that are written in it. -/
structure IsResolved (fs : FileSystem) (r : Resolver) (c : ResolvedConfig) : Prop where
  located : locate fs r = .ok c.path
  loaded : load fs c.path = .ok c.document
  /-- Nothing in the document is forced. -/
  merged : ∃ tree, Loads fs [] c.path tree ∧ tree.merged = c.document
  hasOptions : HasOptions c.document
  forced : (writtenOptions c.document).IsForced c.options
  option : ∀ name, name ∉ CompilerOptions.forcedNames →
    c.options.get? name = option? c.document name
  distinct : c.options.names.Nodup
  /-- They are those of the options as they were written. -/
  advisories : c.advisories = (writtenOptions c.document).advisories
  /-- Each is there just when it is due by the merged document. -/
  due : ∀ a, a ∈ c.advisories ↔ a.IsDue (option? c.document)
  atMostOne : c.advisories.length ≤ 1

theorem nodup_names_writtenOptions {document : Fields} (h : (Json.object document).Sorted) :
    (writtenOptions document).names.Nodup := by
  rw [writtenOptions]
  cases hoptions : document.get? optionsMember with
  | none => exact List.nodup_nil
  | some v =>
    have hsorted : v.Sorted := h.child (s := .member optionsMember) hoptions
    cases v with
    | object members => exact hsorted.members.nodup
    | _ => exact List.nodup_nil

theorem isResolved_of_resolve {fs : FileSystem} {r : Resolver} {c : ResolvedConfig}
    (h : resolve fs r = .ok c) : IsResolved fs r c := by
  obtain ⟨path, document, hpath, hload⟩ := exists_load_of_resolve h
  rw [resolve_of_load hpath hload] at h
  by_cases hoptions : HasOptions document
  · rw [ofDocument_of_hasOptions hoptions] at h
    cases h
    obtain ⟨marks, hrun⟩ := load_eq_iff.mp hload
    have hforced := (writtenOptions document).isForced_forced
    exact {
      located := hpath
      loaded := hload
      merged := (loadFrom_eq_some_iff.mp hrun).loads [] document rfl rfl
      hasOptions := hoptions
      forced := hforced
      option := fun name hname => by
        rw [hforced.others name hname, get?_writtenOptions]
      distinct := CompilerOptions.nodup_names_forced
        (nodup_names_writtenOptions (sorted_of_load hload))
      advisories := rfl
      due := fun a => by
        rw [CompilerOptions.mem_advisories_iff, funext (get?_writtenOptions document)]
      atMostOne := CompilerOptions.length_advisories_le _ }
  · rw [ofDocument_of_not_hasOptions hoptions] at h
    cases h

/-- **Options are forced once all is merged.** In a configuration that is resolved, maps are
written, with the sources in them and not into the text, whatever the documents say; every other
option is the one of the merged document, in the order of the document, and the document and the
advisories are those of what was written. There is at most one advisory, and it is there just when it
is due. A document that is located and loaded can be resolved when its options are missing or an
object, and is reported under its own path otherwise.

The document is located and loaded in a file system without links. -/
theorem resolve_forces (fs : FileSystem) (r : Resolver) :
    (∀ c, resolve fs r = .ok c → IsResolved fs r c) ∧
      ∀ path document, locate fs r = .ok path → load fs path = .ok document →
        ((∃ c, resolve fs r = .ok c) ↔ HasOptions document) ∧
        (¬ HasOptions document → resolve fs r = .error (.parse path .badOptions)) := by
  refine ⟨fun c hc => isResolved_of_resolve hc, fun path document hpath hload => ?_⟩
  rw [resolve_of_load hpath hload]
  by_cases hoptions : HasOptions document
  · rw [ofDocument_of_hasOptions hoptions]
    exact ⟨⟨fun _ => hoptions, fun _ => ⟨_, rfl⟩⟩, fun hnot => absurd hoptions hnot⟩
  · rw [ofDocument_of_not_hasOptions hoptions]
    exact ⟨⟨nofun, fun hhas => absurd hhas hoptions⟩, fun _ => rfl⟩

/-! ## Two layers -/

namespace Layered

/-- A project of two documents, the first of which extends the other, above an empty directory. -/
def files (top base : Fields) : FileSystem where
  entries := [(["app"], .directory), (["app", "src"], .directory),
    (["app", "tsconfig.json"], documentFile top), (["app", "base.json"], documentFile base)]
  current := ["app", "src"]
  pathLimit := some FileSystem.commonPathLimit

/-- Searches from the empty directory. -/
def resolver : Resolver := ⟨⟨"."⟩, none⟩

/-- Turns one forced option on that has to be off. -/
def top : Fields :=
  [("compilerOptions", .object [("inlineSourceMap", .bool true)]), ("extends", .string "./base")]

/-- Has another forced option that is no truth value. -/
def base : Fields := [("compilerOptions", .object [("jsx", .string "x"), ("sourceMap", .null)])]

/-- What the two are merged to. -/
def merged : Fields :=
  [("compilerOptions", .object [("inlineSourceMap", .bool true), ("jsx", .string "x"),
    ("sourceMap", .null)])]

theorem locate_files : locate (files top base) resolver = .ok ⟨"/app/tsconfig.json"⟩ := by
  decide +kernel

theorem load_files : load (files top base) ⟨"/app/tsconfig.json"⟩ = .ok merged := by
  decide +kernel

/-- Extends the other document and has nothing else. -/
def bareTop : Fields := [("extends", .string "./base")]

/-- Has null for all options. -/
def nullBase : Fields := [("compilerOptions", .null)]

/-- Options that come from both documents are forced. Null for all options, from the document that is
extended, is reported of the one that was found. -/
theorem resolve_forces_layers :
    (∃ c, resolve (files top base) resolver = .ok c ∧ c.document = merged ∧
      c.options.get? "sourceMap" = some (.bool true) ∧
      c.options.get? "inlineSourceMap" = none ∧ c.options.untouched = [("jsx", .string "x")]) ∧
    resolve (files bareTop nullBase) resolver =
      .error (.parse ⟨"/app/tsconfig.json"⟩ .badOptions) := by
  constructor
  · obtain ⟨hresolved, hloaded⟩ := resolve_forces (files top base) resolver
    obtain ⟨hiff, -⟩ := hloaded _ _ locate_files load_files
    obtain ⟨c, hc⟩ := hiff.mpr (by decide)
    have h := hresolved c hc
    have hpath : c.path = ⟨"/app/tsconfig.json"⟩ :=
      Except.ok.inj (h.located.symm.trans locate_files)
    have hdocument : c.document = merged :=
      Except.ok.inj ((hpath ▸ h.loaded).symm.trans load_files)
    refine ⟨c, hc, hdocument, h.forced.maps, h.forced.notInline, ?_⟩
    rw [h.forced.order, hdocument]
    rfl
  · obtain ⟨-, hloaded⟩ := resolve_forces (files bareTop nullBase) resolver
    have hpath : locate (files bareTop nullBase) resolver = .ok ⟨"/app/tsconfig.json"⟩ := by
      decide +kernel
    have hload : load (files bareTop nullBase) ⟨"/app/tsconfig.json"⟩ = .ok nullBase := by
      decide +kernel
    exact (hloaded _ _ hpath hload).2 (by decide)

end Layered

end Config

end MapChain
