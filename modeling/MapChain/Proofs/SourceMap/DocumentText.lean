import Mathlib.Data.List.Forall2
import MapChain.Proofs.Json.Compact
import MapChain.Proofs.SourceMap.Spelling

/-!
# Documents as texts and as values

A source map document is exchanged as a text and as a JSON value. The members of a document are
texts, lists of them and one integer, and these are read from a text as what was written. Everything
else is refused in a text as it is in an object: a floating-point number is never read as an
integer, nor an object as a list. Members that are not known are passed over.

## Layers

- **Plain values**: `IsPlain`, without objects and floating-point numbers; what is read as a plain
  value was written for it.
- **Members**: what is read of the members that a document can have.
- **Documents**: `ofText_compact`, an object and its text are the same document.
- **Round trip**: `read_written`, a document is read back from what was written.
-/

namespace MapChain

/-! ## Plain values -/

namespace Json

/-- No object and no floating-point number is in a value. -/
inductive IsPlain : Json → Prop where
  | null : IsPlain .null
  | bool (b : Bool) : IsPlain (.bool b)
  | integer (n : Int) (fits : leastInteger ≤ n ∧ n ≤ greatestInteger) :
    IsPlain (.number (.integer n fits))
  | string (s : String) : IsPlain (.string s)
  | array {items : List Json} (h : ∀ v ∈ items, IsPlain v) : IsPlain (.array items)

/-- What a value is read as from its text. -/
def reread? (v : Json) : Option Json := ofTree? v.toTree

theorem itemsOfTrees?_itemTrees (items : List Json) :
    itemsOfTrees? (itemTrees items) = items.mapM reread? := by
  induction items with
  | nil => rfl
  | cons v items ih =>
    rw [itemTrees, itemsOfTrees?, ih, List.mapM_cons]
    rfl

theorem reread?_array_eq_some_iff {items : List Json} {w : Json} :
    (array items).reread? = some w ↔
      ∃ items', List.Forall₂ (fun v v' => v.reread? = some v') items items' ∧ array items' = w := by
  change (itemsOfTrees? (itemTrees items)).map array = some w ↔ _
  rw [Option.map_eq_some_iff]
  simp only [itemsOfTrees?_itemTrees, mapM_eq_some_iff]

/-- A plain value is read as what was written. -/
theorem IsPlain.reread? {v : Json} (h : v.IsPlain) : v.reread? = some v := by
  induction h with
  | null => rfl
  | bool b => cases b <;> rfl
  | integer n fits => exact congrArg (Option.map number) (Number.value?_integerText n fits)
  | string s => exact congrArg (Option.map Json.string) (Quoted.decode?_encode s)
  | @array items _ ih =>
    refine reread?_array_eq_some_iff.mpr ⟨items, ?_, rfl⟩
    exact List.forall₂_same.mpr ih

mutual

/-- What is read as a plain value was written for it. -/
theorem eq_of_reread? : ∀ (v : Json) {w : Json}, w.IsPlain → v.reread? = some w → v = w
  | .null, _, _, h | .bool true, _, _, h | .bool false, _, _, h => Option.some.inj h
  | .number n, w, hplain, h => by
    obtain ⟨m, hm, rfl⟩ := Option.map_eq_some_iff.mp h
    cases n with
    | integer n fits => rw [Option.some.inj ((Number.value?_integerText n fits).symm.trans hm)]
    | real x =>
      -- A floating-point number is never read as an integer
      obtain ⟨y, rfl⟩ := Number.value?_realText hm
      cases hplain
  | .string s, w, _, h => by
    have hs := congrArg (Option.map Json.string) (Quoted.decode?_encode s)
    exact Option.some.inj (hs.symm.trans h)
  | .array items, w, hplain, h => by
    obtain ⟨items', hitems, rfl⟩ := reread?_array_eq_some_iff.mp h
    cases hplain with
    | array hplain => rw [eq_of_rereadItems items hplain hitems]
  | .object members, w, hplain, h => by
    obtain ⟨ms, -, rfl⟩ := Option.map_eq_some_iff.mp h
    cases hplain

/-- Items that are read as plain values were written for them. -/
theorem eq_of_rereadItems : ∀ (items : List Json) {items' : List Json},
    (∀ w ∈ items', w.IsPlain) →
      List.Forall₂ (fun v w => v.reread? = some w) items items' → items = items'
  | [], _, _, .nil => rfl
  | v :: items, _, hplain, .cons hv hitems => by
    obtain ⟨hw, hrest⟩ := List.forall_mem_cons.mp hplain
    rw [eq_of_reread? v hw hv, eq_of_rereadItems items hrest hitems]

end

theorem isPlain_ofUInt32 (n : UInt32) : (ofUInt32 n).IsPlain := .integer _ _

theorem isPlain_writeNullable {α : Type} {write : α → Json} (h : ∀ a, (write a).IsPlain)
    (o : Option α) : (Shape.writeNullable write o).IsPlain := by
  cases o with
  | none => exact .null
  | some a => exact h a

theorem isPlain_array_map {α : Type} {write : α → Json} (h : ∀ a, (write a).IsPlain)
    (as : List α) : (array (as.map write)).IsPlain :=
  .array (List.forall_mem_map.mpr fun a _ => h a)

end Json

/-! ## Members -/

namespace MapDocument

/-- A member that is listed and what its text is read as. -/
def Rereads (m k : String × Json) : Prop := m.1 = k.1 ∧ m.2.reread? = some k.2

/-- The members that a document can have. -/
def known (members : Fields) : Fields := members.filter fun m => memberNames.contains m.1

theorem get?_known {name : String} (h : name ∈ memberNames) (members : Fields) :
    (known members).get? name = members.get? name := by
  induction members with
  | nil => rfl
  | cons m members ih =>
    obtain ⟨n, v⟩ := m
    rw [known, List.filter_cons, ← known]
    split
    next => rw [Fields.get?_cons, Fields.get?_cons, ih]
    next hn =>
      have hne : name ≠ n := by
        rintro rfl
        exact hn (List.contains_iff_mem.mpr h)
      rw [Fields.get?_cons, if_neg hne, ih]

/-- Of the members of an object that is written, the known ones are read. -/
theorem knownMembers?_memberTrees {members : Fields} (hnodup : members.names.Nodup)
    {read : Fields} :
    knownMembers? (Json.memberTrees members) = some read ↔
      List.Forall₂ Rereads (known members) read := by
  have hnamed : ((Json.memberTrees members).mapM fun m =>
      (Json.Quoted.decode? m.1).map (·, m.2)) = some (members.map fun m => (m.1, m.2.toTree)) := by
    rw [mapM_eq_some_iff, Json.memberTrees_eq_map, List.forall₂_map_left_iff,
      List.forall₂_map_right_iff, List.forall₂_same]
    intro m _
    simp only [Json.Quoted.decode?_encode, Option.map_some]
  have hdistinct : (Fields.names (known members)).Nodup :=
    hnodup.sublist (List.filter_sublist.map _)
  rw [knownMembers?, hnamed, Option.bind_eq_bind, Option.bind_some]
  simp only [List.filter_map, List.map_map]
  change (if (Fields.names (known members)).Nodup then _ else none) = some read ↔ _
  rw [if_pos hdistinct, List.mapM_map, mapM_eq_some_iff]
  have hreads (m k : String × Json) :
      (Json.ofTree? m.2.toTree).map (m.1, ·) = some k ↔ Rereads m k := by
    obtain ⟨n, w⟩ := k
    simp [Rereads, Json.reread?, and_comm]
  simp only [Function.comp_apply, hreads]
  rfl

/-- Members that are read go with those that are listed. -/
theorem rel_get?_of_rereads {members read : Fields} (h : List.Forall₂ Rereads members read)
    (name : String) :
    Option.Rel (fun v w => v.reread? = some w) (members.get? name) (read.get? name) := by
  induction h with
  | nil => exact .none
  | @cons m k members read hmk _ ih =>
    obtain ⟨n, v⟩ := m
    obtain ⟨n', w⟩ := k
    obtain ⟨rfl, hv⟩ := hmk
    rw [Fields.get?_cons, Fields.get?_cons]
    split
    next => exact .some hv
    next => exact ih

theorem SpelledBy.congr {a b : Fields} {d : MapDocument}
    (h : ∀ name ∈ memberNames, a.get? name = b.get? name) (ha : d.SpelledBy a) :
    d.SpelledBy b := by
  rw [memberNames] at h
  simp only [List.forall_mem_cons] at h
  obtain ⟨hversion, hfile, hroot, hsources, hcontents, hnames, hmappings, -⟩ := h
  exact {
    version := hversion ▸ ha.version
    file := hfile ▸ ha.file
    sourceRoot := hroot ▸ ha.sourceRoot
    sources := hsources ▸ ha.sources
    sourcesContent := hcontents ▸ ha.sourcesContent
    names := hnames ▸ ha.names
    mappings := hmappings ▸ ha.mappings }

/-- The members that spell a document are plain. -/
theorem SpelledBy.isPlain {members : Fields} {d : MapDocument} (h : d.SpelledBy members)
    {name : String} (hname : name ∈ memberNames) {v : Json} (hv : members.get? name = some v) :
    v.IsPlain := by
  have hname' := Json.isPlain_writeNullable Json.IsPlain.string
  have hnames := Json.isPlain_array_map Json.IsPlain.string
  have hcontents := Json.isPlain_writeNullable (Json.isPlain_array_map hname')
  have hgetD {default w : Json} (hw : w.IsPlain) (h : (members.get? name).getD default = w) :
      v.IsPlain := by
    rw [hv, Option.getD_some] at h
    rwa [h]
  simp only [memberNames, List.mem_cons, List.not_mem_nil, or_false] at hname
  rcases hname with rfl | rfl | rfl | rfl | rfl | rfl | rfl
  · cases hv.symm.trans h.version
    exact Json.isPlain_ofUInt32 _
  · exact hgetD (hname' _) h.file
  · exact hgetD (hname' _) h.sourceRoot
  · exact hgetD (hnames _) h.sources
  · exact hgetD (hcontents _) h.sourcesContent
  · exact hgetD (hnames _) h.names
  · cases hv.symm.trans h.mappings
    exact .string _

/-- The members that are read spell what the members that were written spell. -/
theorem exists_known_spelledBy_iff {members : Fields} (hnodup : members.names.Nodup)
    {d : MapDocument} :
    (∃ read, knownMembers? (Json.memberTrees members) = some read ∧ d.SpelledBy read) ↔
      d.SpelledBy members := by
  simp only [knownMembers?_memberTrees hnodup]
  constructor
  · -- What is read for a known member is plain, so it was written as it is
    rintro ⟨read, hread, hspelled⟩
    refine hspelled.congr fun name hname => ?_
    rw [← get?_known hname members]
    have hrel := rel_get?_of_rereads hread name
    cases hw : read.get? name with
    | none =>
      rw [hw] at hrel
      generalize (known members).get? name = o at hrel
      cases hrel
      rfl
    | some w =>
      rw [hw] at hrel
      have hplain := hspelled.isPlain hname hw
      generalize (known members).get? name = o at hrel
      cases hrel with
      | @some v _ hv => rw [Json.eq_of_reread? v hplain hv]
  · -- Members that spell a document are plain, and each is read as what was written
    intro hspelled
    refine ⟨known members, List.forall₂_same.mpr fun m hm => ⟨rfl, ?_⟩, ?_⟩
    · obtain ⟨hmem, hname⟩ := List.mem_filter.mp hm
      have hplain := hspelled.isPlain (List.contains_iff_mem.mp hname)
        (Fields.get?_of_mem hnodup hmem)
      exact hplain.reread?
    · exact hspelled.congr fun name hname => (get?_known hname members).symm

/-! ## Documents -/

/-- Whatever is refused is refused as a document that is no JSON of its shape. -/
theorem validated_congr {read read' : Json.Shaped MapDocument}
    (h : ∀ d, read = .ok d ↔ read' = .ok d) : validated read = validated read' := by
  cases read with
  | ok d => rw [(h d).mp rfl]
  | error e =>
    cases read' with
    | ok d => cases (h d).mpr rfl
    | error e' => rfl

/-- **An object and its text are the same document**, or neither is one, for the same reason. -/
theorem ofText_compact {members : Fields} (hnodup : members.names.Nodup) :
    ofText (Json.object members).compact = ofJson (.object members) := by
  rw [ofText, ofJson, Json.ofText?_compact]
  refine validated_congr fun d => ?_
  have hfields : Json.Shape.require (some (Json.object members).toTree) >>= fieldsOfTree =
      Json.Shape.require (knownMembers? (Json.memberTrees members)) := rfl
  have hrecord : Json.Shape.record memberNames (.object members) >>= ofFields =
      ofFields members := rfl
  rw [hfields, hrecord, bind_eq_ok_iff, ofFields_eq_ok_iff, ← exists_known_spelledBy_iff hnodup]
  simp only [Json.Shape.require_eq_ok_iff, ofFields_eq_ok_iff]

end MapDocument

/-! ## Round trip -/

namespace MapDocument

/-- Members that spell a document are read as it, unless its version is not understood. -/
theorem SpelledBy.ofJson_object {members : Fields} {d : MapDocument} (h : d.SpelledBy members) :
    ofJson (.object members) = validated (.ok d) := by
  have hfields : Json.Shape.record memberNames (.object members) >>= ofFields = .ok d :=
    ofFields_eq_ok_iff.mpr h
  rw [ofJson, hfields]

/-- **A document is read back as it was written**, from its text and from its value, also when the
members of the value are sorted: the texts in it come back character by character, and what was
absent stays absent. A document of another version is written all the same, and refused with this
version when it is read. -/
theorem read_written (d : MapDocument) :
    let read : Except MapError MapDocument :=
      if d.version = 3 then .ok d else .error (.unsupportedVersion d.version)
    ofText d.toText = read ∧ ofJson d.toJson = read ∧ ofJson d.toJson.sorted = read := by
  intro read
  have hread : validated (.ok d) = read := rfl
  obtain ⟨members, hmembers, hnodup, hspelled⟩ := d.exists_toJson_eq
  obtain ⟨sorted, hsorted, hspelledSorted⟩ := d.spelledBy_toJson
  refine ⟨?text, ?value, ?sortedValue⟩
  case text => rw [toText, hmembers, ofText_compact hnodup, hspelled.ofJson_object, hread]
  case value => rw [hmembers, hspelled.ofJson_object, hread]
  case sortedValue => rw [hsorted, hspelledSorted.ofJson_object, hread]

end MapDocument

end MapChain
