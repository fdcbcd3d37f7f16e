import MapChain.Json.Equality
import MapChain.Proofs.Config.Tree
import MapChain.Proofs.Json.Sorted

/-!
# The nearest layer

A document is loaded in layers: the documents of its tree, each after those that it extends. Trees
are merged before they are laid over one another, and still the merged document can be told from the
list of layers alone, since laying over is a lookup in the nearest of the two first.

## Layers

- **Members**: `get?_mergeDocuments`, a lookup in a document that is laid over another.
- **Lists of documents**: `lastSetting?` and `NearestWins`, which `NearestWins.merge` carries over
  to the concatenation of two lists.
- **Trees**: `nearestWins_merged`, by induction on a tree.
- **Documents that are loaded**: they are sorted, since documents that are read are.

Main result: `load_nearest_wins`.
-/

namespace MapChain

/-! ## Members -/

namespace Fields

theorem get?_overlay {members : Fields} (hnodup : members.names.Nodup) (base : Fields)
    (name : String) :
    get? (overlay base members) name = (members.get? name).or (base.get? name) := by
  rw [overlay]
  refine (get?_foldl_insert (fun _ _ v => v) hnodup base name).trans ?_
  cases members.get? name <;> rfl

theorem Sorted.overlay {base : Fields} (h : base.Sorted) (members : Fields) :
    (Fields.overlay base members).Sorted :=
  List.foldlRecOn members _ h fun _ hacc m _ => hacc.insert m.1 m.2

end Fields

namespace Config

theorem get?_mergeDocuments {document : Fields} (hnodup : document.names.Nodup) (base : Fields)
    (name : String) :
    (mergeDocuments base document).get? name =
      (document.get? name).elim (base.get? name) fun v =>
        some (overlayValue name (base.get? name) v) :=
  Fields.get?_foldl_insert overlayValue hnodup base name

theorem overlayValue_of_ne {name : String} (h : name ≠ optionsMember) (base : Option Json)
    (v : Json) : overlayValue name base v = v := by
  unfold overlayValue
  split
  · exact if_neg h
  · rfl

theorem get?_mergeDocuments_of_ne {document : Fields} (hnodup : document.names.Nodup)
    (base : Fields) {name : String} (hname : name ≠ optionsMember) :
    (mergeDocuments base document).get? name = (document.get? name).or (base.get? name) := by
  rw [get?_mergeDocuments hnodup]
  cases document.get? name with
  | none => rfl
  | some v =>
    rw [Option.elim_some, overlayValue_of_ne hname]
    rfl

/-! ## Compiler options -/

/-- The compiler options of a document are missing or an object. -/
def HasOptions (document : Fields) : Prop :=
  ∀ v, document.get? optionsMember = some v → ∃ options, v = .object options

instance (document : Fields) : Decidable (HasOptions document) :=
  decidable_of_iff ((document.get? optionsMember).all fun v => v.fields?.isSome) <| by
    rw [HasOptions]
    cases document.get? optionsMember with
    | none => simp
    | some v => cases v <;> simp [Json.fields?]

/-- The value that a document gives to a compiler option. -/
def option? (document : Fields) (name : String) : Option Json :=
  ((document.get? optionsMember).bind Json.fields?).bind fun options => options.get? name

/-- The members of a document are sorted, and so are its compiler options, which are missing or an
object. -/
structure Regular (document : Fields) : Prop where
  sorted : document.Sorted
  options : ∀ v, document.get? optionsMember = some v → ∃ options, v = .object options ∧
    Fields.Sorted options

/-- Missing options stay missing, and options over others are theirs and the others'. -/
theorem get?_mergeDocuments_options {base document : Fields} (hbase : Regular base)
    (hdocument : Regular document) :
    (base.get? optionsMember = none ∧
        (mergeDocuments base document).get? optionsMember = document.get? optionsMember) ∨
      (document.get? optionsMember = none ∧
        (mergeDocuments base document).get? optionsMember = base.get? optionsMember) ∨
      ∃ options more, Fields.Sorted options ∧ Fields.Sorted more ∧
        base.get? optionsMember = some (.object options) ∧
        document.get? optionsMember = some (.object more) ∧
        (mergeDocuments base document).get? optionsMember =
          some (.object (Fields.overlay options more)) := by
  rw [get?_mergeDocuments hdocument.sorted.nodup]
  cases hmore : document.get? optionsMember with
  | none => exact .inr (.inl ⟨rfl, rfl⟩)
  | some more =>
    obtain ⟨more, rfl, hmoreSorted⟩ := hdocument.options _ hmore
    cases hoptions : base.get? optionsMember with
    | none => exact .inl ⟨rfl, rfl⟩
    | some options =>
      obtain ⟨options, rfl, hoptionsSorted⟩ := hbase.options _ hoptions
      refine .inr (.inr ⟨options, more, hoptionsSorted, hmoreSorted, rfl, rfl, ?_⟩)
      rw [Option.elim_some, overlayValue, if_pos rfl]

theorem Regular.nil : Regular [] := ⟨List.Pairwise.nil, nofun⟩

theorem Regular.merge {base document : Fields} (hbase : Regular base)
    (hdocument : Regular document) : Regular (mergeDocuments base document) where
  sorted := List.foldlRecOn document _ hbase.sorted fun _ hacc m _ => hacc.insert m.1 _
  options v hv := by
    obtain ⟨-, heq⟩ | ⟨-, heq⟩ | ⟨options, more, hsorted, -, -, -, heq⟩ :=
      get?_mergeDocuments_options hbase hdocument
    · exact hdocument.options v (heq ▸ hv)
    · exact hbase.options v (heq ▸ hv)
    · rw [heq] at hv
      cases hv
      exact ⟨_, rfl, hsorted.overlay more⟩

theorem get?_erase_options (document : Fields) :
    (document.erase extendsMember).get? optionsMember = document.get? optionsMember := by
  rw [Fields.get?_erase, if_neg (by decide)]

theorem Regular.erase {document : Fields} (h : Regular document) :
    Regular (document.erase extendsMember) where
  sorted := h.sorted.erase _
  options v hv := h.options v (get?_erase_options document ▸ hv)

/-- An option of a document that is laid over another is its own, if it has it. -/
theorem option?_mergeDocuments {base document : Fields} (hbase : Regular base)
    (hdocument : Regular document) (name : String) :
    option? (mergeDocuments base document) name =
      (option? document name).or (option? base name) := by
  rw [option?, option?, option?]
  obtain ⟨hnone, heq⟩ | ⟨hnone, heq⟩ | ⟨options, more, -, hsorted, hoptions, hmore, heq⟩ :=
    get?_mergeDocuments_options hbase hdocument
  · rw [heq, hnone]
    simp
  · rw [heq, hnone]
    simp
  · rw [heq, hoptions, hmore]
    exact Fields.get?_overlay hsorted.nodup options name

/-! ## Lists of documents -/

/-- What the last document of a list that sets something sets it to. -/
def lastSetting? (setting? : Fields → Option Json) (layers : List Fields) : Option Json :=
  layers.reverse.findSome? setting?

theorem lastSetting?_append (setting? : Fields → Option Json) (layers layers' : List Fields) :
    lastSetting? setting? (layers ++ layers') =
      (lastSetting? setting? layers').or (lastSetting? setting? layers) := by
  rw [lastSetting?, List.reverse_append, List.findSome?_append]
  rfl

theorem lastSetting?_singleton (setting? : Fields → Option Json) (document : Fields) :
    lastSetting? setting? [document] = setting? document := by
  rw [lastSetting?, List.reverse_singleton, List.findSome?_singleton]

/-- A document has from each layer what no later layer sets: of the compiler options each option,
and each other member as a whole. It extends nothing. -/
structure NearestWins (merged : Fields) (layers : List Fields) : Prop where
  member : ∀ name, name ≠ extendsMember → name ≠ optionsMember →
    merged.get? name = lastSetting? (·.get? name) layers
  hasOptions : HasOptions merged
  options : merged.contains optionsMember ↔ ∃ layer ∈ layers, layer.contains optionsMember
  option : ∀ name, option? merged name = lastSetting? (option? · name) layers
  extendsNothing : merged.get? extendsMember = none

theorem nearestWins_nil : NearestWins [] [] where
  member _ _ _ := rfl
  hasOptions := nofun
  options := by simp [Fields.contains, Fields.get?]
  option _ := rfl
  extendsNothing := rfl

/-- One document is its own layer, but for what it extends. -/
theorem nearestWins_erase {document : Fields} (h : Regular document) :
    NearestWins (document.erase extendsMember) [document] where
  member name hextends _ := by
    rw [lastSetting?_singleton, Fields.get?_erase, if_neg hextends]
  hasOptions v hv := by
    obtain ⟨options, heq, -⟩ := h.erase.options v hv
    exact ⟨options, heq⟩
  options := by
    rw [Fields.contains, get?_erase_options]
    simp [Fields.contains]
  option name := by
    rw [lastSetting?_singleton, option?, option?, get?_erase_options]
  extendsNothing := by
    rw [Fields.get?_erase, if_pos rfl]

/-- Layers over layers are merged like the documents that they are merged to. -/
theorem NearestWins.merge {base document : Fields} {layers layers' : List Fields}
    (hbase : NearestWins base layers) (hdocument : NearestWins document layers')
    (hregular : Regular base) (hregular' : Regular document) :
    NearestWins (mergeDocuments base document) (layers ++ layers') where
  member name hextends hoptions := by
    rw [get?_mergeDocuments_of_ne hregular'.sorted.nodup base hoptions, lastSetting?_append,
      hbase.member name hextends hoptions, hdocument.member name hextends hoptions]
  hasOptions v hv := by
    obtain ⟨options, heq, -⟩ := (hregular.merge hregular').options v hv
    exact ⟨options, heq⟩
  options := by
    have hmerged : (mergeDocuments base document).contains optionsMember ↔
        base.contains optionsMember ∨ document.contains optionsMember := by
      rw [Fields.contains, Fields.contains, Fields.contains]
      obtain ⟨hnone, heq⟩ | ⟨hnone, heq⟩ | ⟨_, _, -, -, hoptions, -, heq⟩ :=
        get?_mergeDocuments_options hregular hregular'
      · simp [heq, hnone]
      · simp [heq, hnone]
      · simp [heq, hoptions]
    rw [hmerged, hbase.options, hdocument.options]
    simp only [List.mem_append, or_and_right, exists_or]
  option name := by
    rw [option?_mergeDocuments hregular hregular', lastSetting?_append, hbase.option,
      hdocument.option]
  extendsNothing := by
    rw [get?_mergeDocuments_of_ne hregular'.sorted.nodup base (by decide), hbase.extendsNothing,
      hdocument.extendsNothing]
    rfl

/-! ## Trees -/

mutual

/-- A tree is merged to the document that its list of documents tells. -/
theorem nearestWins_merged : ∀ tree : ExtendsTree, (∀ d ∈ tree.documents, Regular d) →
    Regular tree.merged ∧ NearestWins tree.merged tree.documents
  | .node document bases, h => by
    rw [ExtendsTree.documents, List.forall_mem_append, List.forall_mem_singleton] at h
    obtain ⟨hregular, hbases⟩ :=
      nearestWins_mergedOver bases h.1 Regular.nil nearestWins_nil
    exact ⟨hregular.merge h.2.erase, hbases.merge (nearestWins_erase h.2) hregular h.2.erase⟩

theorem nearestWins_mergedOver : ∀ trees : List ExtendsTree,
    (∀ d ∈ ExtendsTree.documentsOfAll trees, Regular d) →
      ∀ {base layers}, Regular base → NearestWins base layers →
        Regular (ExtendsTree.mergedOver base trees) ∧
          NearestWins (ExtendsTree.mergedOver base trees)
            (layers ++ ExtendsTree.documentsOfAll trees)
  | [], _, base, layers, hregular, hbase => by
    rw [ExtendsTree.documentsOfAll, List.append_nil]
    exact ⟨hregular, hbase⟩
  | tree :: trees, h, base, layers, hregular, hbase => by
    rw [ExtendsTree.documentsOfAll, List.forall_mem_append] at h
    obtain ⟨hregular', htree⟩ := nearestWins_merged tree h.1
    -- The tree is laid over what is merged before it, and the other trees over both
    rw [ExtendsTree.documentsOfAll, ← List.append_assoc]
    exact nearestWins_mergedOver trees h.2 (hregular.merge hregular')
      (hbase.merge htree hregular hregular')

end

/-! ## Documents that are read -/

variable {fs : FileSystem}

/-- A document that is read is sorted, with every value in it. -/
theorem sorted_of_readDocument {p : Path} {document : Fields}
    (h : readDocument fs p = .ok document) : (Json.object document).Sorted := by
  rw [readDocument] at h
  split at h
  next => cases h
  next =>
    split at h
    next => cases h
    next text _ =>
      rw [Lenient.read, Lenient.readChars] at h
      split at h
      next hmembers =>
        cases h
        have hvalue : Json.ofText? (String.ofList (Lenient.clean text.toList)) =
            some (.object document) := by
          rw [Json.ofText?, String.toList_ofList, hmembers]
        exact Json.sorted_of_ofText? hvalue
      next => cases h
      next => cases h

theorem regular_of_sorted {document : Fields} (hsorted : (Json.object document).Sorted)
    (h : HasOptions document) : Regular document where
  sorted := hsorted.members
  options v hv := by
    obtain ⟨options, rfl⟩ := h v hv
    have hchild : (Json.object document).child? (.member optionsMember) = some (.object options) :=
      hv
    exact ⟨options, rfl, (hsorted.child hchild).members⟩

mutual

theorem Loads.sorted : ∀ {chain p tree}, Loads fs chain p tree →
    ∀ d ∈ tree.documents, (Json.object d).Sorted
  | _, _, _, .node _ hopens hbases => by
    rw [ExtendsTree.documents, List.forall_mem_append, List.forall_mem_singleton]
    exact ⟨hbases.sorted, sorted_of_readDocument hopens.read⟩

theorem LoadsAll.sorted : ∀ {chain p references trees}, LoadsAll fs chain p references trees →
    ∀ d ∈ ExtendsTree.documentsOfAll trees, (Json.object d).Sorted
  | _, _, _, _, .nil => nofun
  | _, _, _, _, .cons _ hbase hrest => by
    rw [ExtendsTree.documentsOfAll, List.forall_mem_append]
    exact ⟨hbase.sorted, hrest.sorted⟩

end

/-! ## Documents that are loaded -/

theorem sorted_overlay {base members : Fields} (hbase : (Json.object base).Sorted)
    (h : ∀ m ∈ members, m.2.Sorted) : (Json.object (Fields.overlay base members)).Sorted :=
  List.foldlRecOn (motive := fun acc => (Json.object acc).Sorted) members _ hbase
    fun _ hacc m hm => hacc.insert m.1 (h m hm)

theorem sorted_of_mem {members : Fields} (h : (Json.object members).Sorted) :
    ∀ m ∈ members, m.2.Sorted := fun m hm =>
  (Json.sorted_object_iff.mp h).2 m.1 m.2 (Fields.get?_of_mem h.members.nodup hm)

theorem sorted_overlayValue (name : String) {base : Option Json} {v : Json}
    (hbase : ∀ b, base = some b → b.Sorted) (h : v.Sorted) :
    (overlayValue name base v).Sorted := by
  unfold overlayValue
  split
  · split
    · exact sorted_overlay (hbase _ rfl) (sorted_of_mem h)
    · exact h
  · exact h

theorem sorted_mergeDocuments {base document : Fields} (hbase : (Json.object base).Sorted)
    (h : (Json.object document).Sorted) : (Json.object (mergeDocuments base document)).Sorted := by
  refine List.foldlRecOn (motive := fun acc => (Json.object acc).Sorted) document _ hbase ?_
  intro acc hacc m hm
  have hover : ∀ b, Fields.get? acc m.1 = some b → b.Sorted := fun b hb =>
    (Json.sorted_object_iff.mp hacc).2 m.1 b hb
  exact hacc.insert m.1 (sorted_overlayValue m.1 hover (sorted_of_mem h m hm))

mutual

theorem sorted_merged : ∀ tree : ExtendsTree,
    (∀ d ∈ tree.documents, (Json.object d).Sorted) → (Json.object tree.merged).Sorted
  | .node document bases, h => by
    rw [ExtendsTree.documents, List.forall_mem_append, List.forall_mem_singleton] at h
    exact sorted_mergeDocuments (sorted_mergedOver bases h.1 (Json.sorted_of_steps_eq_nil rfl))
      (h.2.erase extendsMember)

theorem sorted_mergedOver : ∀ trees : List ExtendsTree,
    (∀ d ∈ ExtendsTree.documentsOfAll trees, (Json.object d).Sorted) →
      ∀ {base : Fields}, (Json.object base).Sorted →
        (Json.object (ExtendsTree.mergedOver base trees)).Sorted
  | [], _, _, hbase => hbase
  | tree :: trees, h, _, hbase => by
    rw [ExtendsTree.documentsOfAll, List.forall_mem_append] at h
    exact sorted_mergedOver trees h.2 (sorted_mergeDocuments hbase (sorted_merged tree h.1))

end

/-- A document that is loaded is sorted, with every value in it. -/
theorem sorted_of_load {fs : FileSystem} {p : Path} {merged : Fields}
    (h : load fs p = .ok merged) : (Json.object merged).Sorted := by
  obtain ⟨marks, hload⟩ := load_eq_iff.mp h
  obtain ⟨tree, htree, rfl⟩ := (loadFrom_eq_some_iff.mp hload).loads [] merged rfl rfl
  exact sorted_merged tree htree.sorted

/-- **The nearest layer wins.** A document that can be loaded has one tree. If the compiler options
of every document in it are missing or an object, the loaded document has each option and each other
member from the last document in post-order that sets it, and extends nothing.

The documents are those that references lead to in a file system without links. -/
theorem load_nearest_wins {p : Path} {merged : Fields} (h : load fs p = .ok merged) :
    ∃ tree, Loads fs [] p tree ∧ (∀ tree', Loads fs [] p tree' → tree' = tree) ∧
      ((∀ d ∈ tree.documents, HasOptions d) → NearestWins merged tree.documents) := by
  obtain ⟨marks, hload⟩ := load_eq_iff.mp h
  obtain ⟨tree, htree, rfl⟩ := (loadFrom_eq_some_iff.mp hload).loads [] merged rfl rfl
  refine ⟨tree, htree, fun _ htree' => htree.unique htree', fun hoptions => ?_⟩
  have hregular : ∀ d ∈ tree.documents, Regular d := fun d hd =>
    regular_of_sorted (htree.sorted d hd) (hoptions d hd)
  exact (nearestWins_merged tree hregular).2

/-! ## A diamond -/

namespace Diamond

/-- The document that both others extend. -/
def root : Fields :=
  [("compilerOptions", .object [("x", .string "root"), ("y", .object [("a", .null)])]),
    ("files", .array [.string "r"]), ("include", .array [])]

/-- Has compiler options. -/
def left : Fields :=
  [("compilerOptions", .object [("y", .object [("b", .null)])]), ("extends", .string "./root")]

/-- Has no compiler options. -/
def right : Fields := [("extends", .string "./root.json"), ("include", .array [.string "b"])]

/-- Extends both. -/
def top : Fields :=
  [("compilerOptions", .object [("z", .bool true)]),
    ("extends", .array [.string "../base/left", .string "../base/./right.json"])]

/-- The four documents, in two directories. -/
def files : FileSystem where
  entries := [(["app"], .directory), (["app", "top.json"], documentFile top),
    (["base"], .directory), (["base", "left.json"], documentFile left),
    (["base", "right.json"], documentFile right), (["base", "root.json"], documentFile root)]
  current := []
  pathLimit := some FileSystem.commonPathLimit

/-- The tree of the top document. -/
def tree : ExtendsTree :=
  .node top [.node left [.node root []], .node right [.node root []]]

theorem loads_root {chain : List Path} {p : Path} (hfresh : ∀ d ∈ chain, ¬ files.SameFile d p)
    (hread : readDocument files p = .ok root) : Loads files chain p (.node root []) :=
  .node hfresh ⟨hread, rfl⟩ .nil

theorem loads_tree : Loads files [] ⟨"/app/top.json"⟩ tree := by
  have hleft : Loads files [⟨"/app/top.json"⟩] ⟨"/app/../base/left.json"⟩
      (.node left [.node root []]) := by
    have hroot : resolveReference files "./root" ⟨"/app/../base"⟩ =
        .ok ⟨"/app/../base/./root.json"⟩ := by
      decide +kernel
    refine .node (by decide +kernel) ⟨by decide +kernel, rfl⟩ (.cons hroot ?_ .nil)
    exact loads_root (by decide +kernel) (by decide +kernel)
  have hright : Loads files [⟨"/app/top.json"⟩] ⟨"/app/../base/./right.json"⟩
      (.node right [.node root []]) := by
    have hroot : resolveReference files "./root.json" ⟨"/app/../base"⟩ =
        .ok ⟨"/app/../base/./root.json"⟩ := by
      decide +kernel
    refine .node (by decide +kernel) ⟨by decide +kernel, rfl⟩ (.cons hroot ?_ .nil)
    exact loads_root (by decide +kernel) (by decide +kernel)
  exact .node nofun ⟨by decide +kernel, rfl⟩
    (.cons (by decide +kernel) hleft (.cons (by decide +kernel) hright .nil))

theorem load_top : load files ⟨"/app/top.json"⟩ = .ok tree.merged := by
  have hnames : files.CanonicalNames :=
    FileSystem.canonicalNames_of_isListed_current (List.forall_mem_nil _)
  exact load_eq_iff.mpr ⟨[], loadFrom_eq_some_iff.mpr (loads_tree.run hnames nofun)⟩

/-- The document at the bottom is listed twice, and the second time after the one on the left: its
option is laid over that one's. -/
theorem load_nearest_wins_top :
    load files ⟨"/app/top.json"⟩ = .ok tree.merged ∧
      tree.documents = [root, left, root, right, top] ∧
      NearestWins tree.merged [root, left, root, right, top] := by
  obtain ⟨tree', -, hunique, hwins⟩ := load_nearest_wins load_top
  obtain rfl := hunique tree loads_tree
  exact ⟨load_top, rfl, hwins (by decide +kernel)⟩

end Diamond

end Config

end MapChain
