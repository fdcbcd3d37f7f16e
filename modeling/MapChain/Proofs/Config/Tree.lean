import MapChain.Config.Load
import MapChain.Proofs.Files.Canonical

/-!
# The tree of a document

The documents that are read on behalf of one make a tree: below each document are those that it
extends, in order, each with its own tree. A document that is reached twice stands in it twice.

## Layers

- **Trees**: `ExtendsTree`, its documents in post-order, and the document that it is merged to.
- **Loading**: `Loads` says which tree a path leads to, while the documents of a chain are being
  loaded; there is one tree at most.
- **Runs**: `Run.loads`, what a run loads is the merged tree, and `Loads.run`, a tree is loaded by a
  run where canonical paths tell files apart.
-/

namespace MapChain.Config

/-! ## Trees -/

/-- A document with the trees of the documents that it extends, in order. -/
inductive ExtendsTree where
  | node (document : Fields) (bases : List ExtendsTree)

namespace ExtendsTree

mutual

/-- The documents of a tree in post-order: a document stands after all that it extends. -/
def documents : ExtendsTree → List Fields
  | .node document bases => documentsOfAll bases ++ [document]

/-- The documents of trees, one tree after the other. -/
def documentsOfAll : List ExtendsTree → List Fields
  | [] => []
  | base :: bases => base.documents ++ documentsOfAll bases

end

mutual

/-- The document that a tree is merged to. -/
def merged : ExtendsTree → Fields
  | .node document bases =>
    mergeDocuments (mergedOver [] bases) (document.erase extendsMember)

/-- Lays trees over a document, one after the other. -/
def mergedOver (base : Fields) : List ExtendsTree → Fields
  | [] => base
  | tree :: trees => mergedOver (mergeDocuments base tree.merged) trees

end

end ExtendsTree

/-! ## Loading -/

mutual

/-- A path leads to a tree while the documents of a chain are being loaded: its document is none of
them and can be read, and what it extends leads to trees. -/
inductive Loads (fs : FileSystem) : List Path → Path → ExtendsTree → Prop where
  | node {chain p document references bases} (hfresh : ∀ d ∈ chain, ¬ fs.SameFile d p)
      (hopens : Opens fs p document references) (hbases : LoadsAll fs chain p references bases) :
      Loads fs chain p (.node document bases)

/-- References in the document of a path lead to trees, while it and the documents of a chain are
being loaded. -/
inductive LoadsAll (fs : FileSystem) :
    List Path → Path → List Json → List ExtendsTree → Prop where
  | nil {chain p} : LoadsAll fs chain p [] []
  | cons {chain p text base tree references trees}
      (hresolve : resolveReference fs text (directoryOf p) = .ok base)
      (hbase : Loads fs (p :: chain) base tree) (hrest : LoadsAll fs chain p references trees) :
      LoadsAll fs chain p (.string text :: references) (tree :: trees)

end

variable {fs : FileSystem}

/-- The file that holds a document. -/
def documentFile (document : Fields) : FileEntry :=
  .file (Json.object document).compact.toUTF8 false

theorem Opens.unique {p : Path} {document document' : Fields} {references references' : List Json}
    (h : Opens fs p document references) (h' : Opens fs p document' references') :
    document = document' ∧ references = references' := by
  obtain rfl := Except.ok.inj (h.read.symm.trans h'.read)
  exact ⟨rfl, Option.some.inj (h.extended.symm.trans h'.extended)⟩

mutual

/-- A path leads to one tree at most. -/
theorem Loads.unique : ∀ {chain p tree}, Loads fs chain p tree →
    ∀ {tree'}, Loads fs chain p tree' → tree' = tree
  | _, _, _, .node _ hopens hbases, _, .node _ hopens' hbases' => by
    obtain ⟨rfl, rfl⟩ := hopens.unique hopens'
    rw [hbases.unique hbases']

theorem LoadsAll.unique : ∀ {chain p references trees}, LoadsAll fs chain p references trees →
    ∀ {trees'}, LoadsAll fs chain p references trees' → trees' = trees
  | _, _, _, _, .nil, _, .nil => rfl
  | _, _, _, _, .cons hresolve hbase hrest, _, .cons hresolve' hbase' hrest' => by
    obtain rfl := Except.ok.inj (hresolve.symm.trans hresolve')
    rw [hbase.unique hbase', hrest.unique hrest']

end

theorem LoadsAll.append {chain : List Path} {p : Path} {before after : List Json}
    {trees trees' : List ExtendsTree} (h : LoadsAll fs chain p before trees)
    (h' : LoadsAll fs chain p after trees') :
    LoadsAll fs chain p (before ++ after) (trees ++ trees') := by
  induction before generalizing trees with
  | nil =>
    cases h
    exact h'
  | cons reference before ih =>
    cases h with
    | cons hresolve hbase hrest => exact .cons hresolve hbase (ih hrest)

/-! ## Runs -/

/-- Paths to one location have one mark. -/
theorem markOf_eq_of_sameFile {p q : Path} (h : fs.SameFile p q) : markOf fs p = markOf fs q := by
  obtain ⟨l, hp, hq⟩ := h
  rw [markOf, markOf, FileSystem.canonical?_of_resolve? hp, FileSystem.canonical?_of_resolve? hq]
  rfl

/-- A path without the mark of any document of a chain leads to none of them. -/
theorem fresh_of_markOf_notMem {chain : List Path} {p : Path}
    (h : markOf fs p ∉ chain.map (markOf fs)) : ∀ d ∈ chain, ¬ fs.SameFile d p :=
  fun d hd hsame => h (List.mem_map.mpr ⟨d, hd, markOf_eq_of_sameFile hsame⟩)

mutual

/-- **What a run loads is a merged tree.** -/
theorem Run.loads : ∀ {marks p result marks'}, Run fs marks p result marks' →
    ∀ chain merged, marks = chain.map (markOf fs) → result = .ok merged →
      ∃ tree, Loads fs chain p tree ∧ tree.merged = merged
  | _, _, _, _, .loaded hmark hopens hbases, chain, _, hmarks, hmerged => by
    obtain ⟨trees, htrees, rfl⟩ := hbases.loads chain _ (by rw [hmarks, List.map_cons]) rfl
    rw [hmarks] at hmark
    exact ⟨_, .node (fresh_of_markOf_notMem hmark) hopens htrees, Except.ok.inj hmerged⟩

/-- A run that loads references has read their trees, and lays them over what was merged. -/
theorem RunBases.loads : ∀ {marks p references base result marks'},
    RunBases fs marks p references base result marks' →
    ∀ chain merged, marks = (p :: chain).map (markOf fs) → result = .ok merged →
      ∃ trees, LoadsAll fs chain p references trees ∧ ExtendsTree.mergedOver base trees = merged
  | _, _, _, _, _, _, .nil, _, _, _, hmerged => ⟨[], .nil, Except.ok.inj hmerged⟩
  | _, p, _, _, _, _, .loaded hresolve hbase hrest, chain, _, hmarks, hmerged => by
    obtain ⟨tree, htree, hdocument⟩ := hbase.loads (p :: chain) _ hmarks rfl
    obtain ⟨trees, htrees, hmerged⟩ :=
      hrest.loads chain _ ((hbase.marks_eq _ rfl).trans hmarks) hmerged
    exact ⟨tree :: trees, .cons hresolve htree htrees, by
      rw [ExtendsTree.mergedOver, hdocument, hmerged]⟩

end

/-! ## Trees that are loaded -/

theorem isFile_of_readDocument {p : Path} {document : Fields}
    (h : readDocument fs p = .ok document) : fs.isFile p := by
  obtain ⟨l, bytes, hl, hbytes, -⟩ := exists_location_of_readDocument h
  rw [FileSystem.isFile, hl, Option.bind_some, hbytes]
  rfl

theorem isFile_of_fileOrJson? {p q : Path} (h : fileOrJson? fs p = some q) : fs.isFile q := by
  rw [fileOrJson?] at h
  split at h
  next hp =>
    cases h
    exact hp
  next =>
    rw [Option.ite_none_right_eq_some] at h
    cases h.2
    exact h.1

theorem isFile_of_packageConfig? {package q : Path} (h : packageConfig? fs package = some q) :
    fs.isFile q := by
  rw [packageConfig?] at h
  split at h
  next p hp =>
    cases h
    rw [manifestConfig?] at hp
    split at hp
    next =>
      split at hp
      next =>
        rw [Option.ite_none_right_eq_some] at hp
        cases hp.2
        exact hp.1
      next => cases hp
    next => cases hp
  next =>
    rw [Option.ite_none_right_eq_some] at h
    cases h.2
    exact h.1

/-- A reference leads to a file. -/
theorem isFile_of_resolveReference {text : String} {dir q : Path}
    (h : resolveReference fs text dir = .ok q) : fs.isFile q := by
  rw [resolveReference] at h
  split at h
  next =>
    split at h
    next p hp =>
      cases h
      exact isFile_of_fileOrJson? hp
    next => cases h
  next =>
    split at h
    next p hp =>
      cases h
      obtain ⟨ancestor, -, hfound⟩ := List.exists_of_findSome?_eq_some hp
      rw [packageIn?] at hfound
      split at hfound
      next hfile =>
        cases hfound
        exact isFile_of_fileOrJson? hfile
      next =>
        rw [Option.ite_none_right_eq_some] at hfound
        exact isFile_of_packageConfig? hfound.2
    next => cases h

/-- Where canonical paths tell files apart, a file is marked exactly when it is among the files that
are being loaded. -/
theorem markOf_mem_iff (hnames : fs.CanonicalNames) {chain : List Path}
    (hchain : ∀ d ∈ chain, fs.isFile d) {p : Path} (hp : fs.isFile p) :
    markOf fs p ∈ chain.map (markOf fs) ↔ ∃ d ∈ chain, fs.SameFile d p := by
  constructor
  · intro h
    obtain ⟨d, hd, hmark⟩ := List.mem_map.mp h
    obtain ⟨hsome, hiff⟩ := hnames d p (hchain d hd) hp
    obtain ⟨c, hc⟩ := Option.isSome_iff_exists.mp hsome
    obtain ⟨c', hc'⟩ := Option.isSome_iff_exists.mp (hnames p p hp hp).1
    rw [markOf, markOf, hc, hc'] at hmark
    refine ⟨d, hd, hiff.mp ?_⟩
    rw [hc, hc']
    exact congrArg some hmark
  · rintro ⟨d, hd, hsame⟩
    exact List.mem_map.mpr ⟨d, hd, markOf_eq_of_sameFile hsame⟩

theorem markOf_notMem (hnames : fs.CanonicalNames) {chain : List Path}
    (hchain : ∀ d ∈ chain, fs.isFile d) {p : Path} (hp : fs.isFile p)
    (hfresh : ∀ d ∈ chain, ¬ fs.SameFile d p) : markOf fs p ∉ chain.map (markOf fs) := by
  rw [markOf_mem_iff hnames hchain hp]
  rintro ⟨d, hd, hsame⟩
  exact hfresh d hd hsame

mutual

/-- **A tree is loaded**, and the marks are left as they were. -/
theorem Loads.run (hnames : fs.CanonicalNames) : ∀ {chain p tree}, Loads fs chain p tree →
    (∀ d ∈ chain, fs.isFile d) →
      Run fs (chain.map (markOf fs)) p (.ok tree.merged) (chain.map (markOf fs))
  | chain, p, _, .node hfresh hopens hbases, hchain => by
    have hfile := isFile_of_readDocument hopens.read
    have hmark := markOf_notMem hnames hchain hfile hfresh
    -- All references of the document lead to trees, and nothing is merged before the first
    have hrun := hbases.runBases hnames (List.forall_mem_cons.mpr ⟨hfile, hchain⟩) [] [] .nil
    rw [List.append_nil] at hrun
    exact .loaded hmark hopens hrun

/-- After references that lead to trees the next ones are loaded, over these trees. -/
theorem LoadsAll.runBases (hnames : fs.CanonicalNames) : ∀ {chain p references trees},
    LoadsAll fs chain p references trees → (∀ d ∈ p :: chain, fs.isFile d) →
      ∀ after base {result marks'},
        RunBases fs ((p :: chain).map (markOf fs)) p after (ExtendsTree.mergedOver base trees)
          result marks' →
        RunBases fs ((p :: chain).map (markOf fs)) p (references ++ after) base result marks'
  | _, _, _, _, .nil, _, _, _, _, _, hafter => hafter
  | _, _, _, _, .cons hresolve hbase hrest, hchain, _, _, _, _, hafter =>
    .loaded hresolve (hbase.run hnames hchain) (hrest.runBases hnames hchain _ _ hafter)

end

end MapChain.Config
