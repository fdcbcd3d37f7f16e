import Mathlib.Logic.Relation
import MapChain.Json.Equality
import MapChain.Proofs.Config.Tree

/-!
# Cycles of documents

Loading walks through documents depth first, through the references of each from first to last, and
up to the first that fails. A reference fails for leading into a circle when it leads to a document
on the chain from the start to the one that it stands in, and not for leading to one that is loaded
already.

## Layers

- **The walk**: `Reaches` says where the walk comes to, and with which chain, by references and
  trees alone.
- **From the walk to the ending**: `Reaches.run`, what fails where the walk has come to ends the
  loading.
- **From the ending to the walk**: `Run.reaches`, by induction on a run.
- **References**: `Extends`, from document to document; each document of a chain extends the next.

Main result: `loadFrom_ends_circular_iff`.
-/

namespace MapChain.Config

/-! ## The walk -/

/-- The walk from a document comes to a path while the documents of a chain are being loaded, the
last one standing first: each of them is entered for the first time on the chain, and all references
before the one that leads on lead to trees. -/
inductive Reaches (fs : FileSystem) (start : Path) : List Path → Path → Prop where
  | start : Reaches fs start [] start
  | next {chain p document before text after trees base} (hreach : Reaches fs start chain p)
      (hfresh : ∀ d ∈ chain, ¬ fs.SameFile d p)
      (hopens : Opens fs p document (before ++ .string text :: after))
      (hbefore : LoadsAll fs chain p before trees)
      (hresolve : resolveReference fs text (directoryOf p) = .ok base) :
      Reaches fs start (p :: chain) base

/-- A document extends another: one of its references leads there. -/
def Extends (fs : FileSystem) (p q : Path) : Prop :=
  ∃ document references text, Opens fs p document references ∧ Json.string text ∈ references ∧
    resolveReference fs text (directoryOf p) = .ok q

variable {fs : FileSystem} {start : Path} {chain : List Path} {p : Path}

theorem Reaches.isFile_of_mem (h : Reaches fs start chain p) : ∀ d ∈ chain, fs.isFile d := by
  induction h with
  | start => exact nofun
  | next _ _ hopens _ _ ih =>
    exact List.forall_mem_cons.mpr ⟨isFile_of_readDocument hopens.read, ih⟩

/-- Behind the start the walk comes to files only. -/
theorem Reaches.isFile (h : Reaches fs start chain p) (hchain : chain ≠ []) : fs.isFile p := by
  cases h with
  | start => exact absurd rfl hchain
  | next _ _ _ _ hresolve => exact isFile_of_resolveReference hresolve

/-! ## From the walk to the ending -/

/-- What fails where the walk has come to is the first failure, and ends the loading. -/
theorem Reaches.run (hnames : fs.CanonicalNames) (h : Reaches fs start chain p) {e : ConfigError}
    {marks : List Path} (hfails : Run fs (chain.map (markOf fs)) p (.error e) marks) :
    ∃ marks', Run fs [] start (.error e) marks' := by
  induction h generalizing marks with
  | start => exact ⟨marks, hfails⟩
  | @next chain p document before text after trees base hreach hfresh hopens hbefore hresolve ih =>
    have hfile := isFile_of_readDocument hopens.read
    have hmark := markOf_notMem hnames hreach.isFile_of_mem hfile hfresh
    -- The references before this one are loaded, and this one fails
    have hbases := hbefore.runBases hnames
      (List.forall_mem_cons.mpr ⟨hfile, hreach.isFile_of_mem⟩) (.string text :: after) []
      (.failed hresolve hfails)
    exact ih (.failed hmark hopens hbases)

/-! ## From the ending to the walk -/

theorem ne_circularExtends_of_readDocument {e : ConfigError} (h : readDocument fs p = .error e)
    (q : Path) : e ≠ .circularExtends q := by
  rintro rfl
  rw [readDocument] at h
  split at h
  next => cases h
  next =>
    split at h
    next => cases h
    next text _ =>
      cases hread : Lenient.read text with
      | ok document =>
        rw [hread] at h
        cases h
      | error fault =>
        rw [hread] at h
        cases h

theorem ne_circularExtends_of_resolveReference {text : String} {e : ConfigError}
    (h : resolveReference fs text p = .error e) (q : Path) : e ≠ .circularExtends q := by
  rintro rfl
  rw [resolveReference] at h
  split at h <;> split at h <;> cases h

mutual

/-- A run that ends in a circle has come to a document on its chain. -/
theorem Run.reaches : ∀ {marks p result marks'}, Run fs marks p result marks' →
    ∀ {chain q}, marks = chain.map (markOf fs) → result = .error (.circularExtends q) →
      fs.CanonicalNames → Reaches fs start chain p →
        ∃ chain', Reaches fs start chain' q ∧ ∃ d ∈ chain', fs.SameFile d q
  | _, p, _, _, .circular hmark, chain, q, hmarks, hresult, hnames, hreach => by
    rw [hmarks] at hmark
    -- Something is marked, so this is not the start, and a reference has led here
    have hchain : chain ≠ [] := by
      rintro rfl
      cases hmark
    rw [markOf_mem_iff hnames hreach.isFile_of_mem (hreach.isFile hchain)] at hmark
    cases hresult
    exact ⟨chain, hreach, hmark⟩
  | _, _, _, _, .unread _ hread, _, q, _, hresult, _, _ =>
    absurd (Except.error.inj hresult) (ne_circularExtends_of_readDocument hread q)
  | _, _, _, _, .badExtends _ _ _, _, _, _, hresult, _, _ =>
    absurd (Except.error.inj hresult) nofun
  | _, _, _, _, .failed hmark hopens hbases, _, _, hmarks, hresult, hnames, hreach => by
    rw [hmarks] at hmark
    exact hbases.reaches (by rw [hmarks, List.map_cons]) hresult hnames hreach
      (fresh_of_markOf_notMem hmark) (by rwa [List.nil_append]) .nil

/-- The same for references, where the ones before them lead to trees. -/
theorem RunBases.reaches : ∀ {marks p references base result marks'},
    RunBases fs marks p references base result marks' →
    ∀ {chain q}, marks = (p :: chain).map (markOf fs) → result = .error (.circularExtends q) →
      fs.CanonicalNames → Reaches fs start chain p → (∀ d ∈ chain, ¬ fs.SameFile d p) →
      ∀ {document before trees}, Opens fs p document (before ++ references) →
        LoadsAll fs chain p before trees →
          ∃ chain', Reaches fs start chain' q ∧ ∃ d ∈ chain', fs.SameFile d q
  | _, _, _, _, _, _, .noText _, _, _, _, hresult, _, _, _, _, _, _, _, _ =>
    absurd (Except.error.inj hresult) nofun
  | _, _, _, _, _, _, .unresolved hresolve, _, q, _, hresult, _, _, _, _, _, _, _, _ =>
    absurd (Except.error.inj hresult) (ne_circularExtends_of_resolveReference hresolve q)
  | _, _, _, _, _, _, .failed hresolve hbase, _, _, hmarks, hresult, hnames, hreach, hfresh,
      _, _, _, hopens, hbefore =>
    hbase.reaches hmarks hresult hnames (.next hreach hfresh hopens hbefore hresolve)
  | _, p, _, _, _, _, .loaded hresolve hbase hrest, chain, _, hmarks, hresult, hnames, hreach,
      hfresh, _, _, _, hopens, hbefore => by
    -- The reference that is loaded is one more before the next
    obtain ⟨tree, htree, -⟩ := hbase.loads (p :: chain) _ hmarks rfl
    have hmarks' := (hbase.marks_eq _ rfl).trans hmarks
    rw [List.append_cons] at hopens
    exact hrest.reaches hmarks' hresult hnames hreach hfresh hopens
      (hbefore.append (.cons hresolve htree .nil))

end

/-! ## References -/

/-- Each document of a chain comes from the start by references, and leads by references to where
the walk is. -/
theorem Reaches.extends (h : Reaches fs start chain p) :
    Relation.ReflTransGen (Extends fs) start p ∧
      ∀ d ∈ chain, Relation.ReflTransGen (Extends fs) start d ∧
        Relation.TransGen (Extends fs) d p := by
  induction h with
  | start => exact ⟨.refl, nofun⟩
  | next _ _ hopens _ hresolve ih =>
    have hstep : Extends fs _ _ := ⟨_, _, _, hopens, by simp, hresolve⟩
    refine ⟨ih.1.tail hstep, List.forall_mem_cons.mpr ⟨⟨ih.1, .single hstep⟩, fun d hd => ?_⟩⟩
    exact ⟨(ih.2 d hd).1, (ih.2 d hd).2.tail hstep⟩

/-! ## Endings -/

/-- **Loading ends, and in a circle exactly when the walk comes to one.** Where canonical paths tell
files apart, loading a document ends, whatever depth it has, if this is more than the number of
files. It ends with a circle through a path exactly when the walk comes to this path before anything
fails and the path, however it is spelled, leads to a document on the chain. So it never does where
no document extends itself through others. And a document that is loaded, whatever was marked
before, leaves the same marks.

The file system has no links. A file is reached by several paths only where these are spelled
differently. -/
theorem loadFrom_ends_circular_iff (hnames : fs.CanonicalNames) (start : Path) :
    (∃ ending, loadFrom fs [] start = some ending ∧
      ∀ depth, fs.entries.length < depth → loadWithin fs depth [] start = some ending) ∧
    (∀ q, (∃ marks, loadFrom fs [] start = some (.error (.circularExtends q), marks)) ↔
      ∃ chain, Reaches fs start chain q ∧ ∃ d ∈ chain, fs.SameFile d q) ∧
    ((∀ p q, Relation.ReflTransGen (Extends fs) start p → Relation.TransGen (Extends fs) p q →
        ¬ fs.SameFile p q) →
      ∀ q marks, loadFrom fs [] start ≠ some (.error (.circularExtends q), marks)) ∧
    (∀ marks p document marks', loadFrom fs marks p = some (.ok document, marks') →
      marks' = marks) := by
  have hcircular : ∀ q, (∃ marks, loadFrom fs [] start =
      some (.error (.circularExtends q), marks)) ↔
        ∃ chain, Reaches fs start chain q ∧ ∃ d ∈ chain, fs.SameFile d q := by
    intro q
    constructor
    · rintro ⟨marks, h⟩
      have hmarks : [] = ([] : List Path).map (markOf fs) := rfl
      exact (loadFrom_eq_some_iff.mp h).reaches hmarks rfl hnames .start
    · rintro ⟨chain, hreach, d, hd, hsame⟩
      have hmark : markOf fs q ∈ chain.map (markOf fs) :=
        List.mem_map.mpr ⟨d, hd, markOf_eq_of_sameFile hsame⟩
      obtain ⟨marks, hrun⟩ := hreach.run hnames (.circular hmark)
      exact ⟨marks, loadFrom_eq_some_iff.mpr hrun⟩
  obtain ⟨ending, hending⟩ := exists_loadFrom fs [] start
  refine ⟨⟨ending, hending, fun depth hdepth => ?_⟩, hcircular, fun hacyclic q marks h => ?_,
    fun marks p document marks' h => (loadFrom_eq_some_iff.mp h).marks_eq document rfl⟩
  · have hless : remaining fs [] < depth := Nat.lt_of_le_of_lt (List.length_filter_le _ _) hdepth
    rw [loadWithin_eq_loadFrom hless, hending]
  · obtain ⟨chain, hreach, d, hd, hsame⟩ := (hcircular q).mp ⟨marks, h⟩
    obtain ⟨hstart, hd⟩ := hreach.extends.2 d hd
    exact hacyclic d q hstart hd hsame

/-! ## A circle -/

namespace Circle

/-- The first document of the circle. -/
def first : Fields := [("extends", .array [.string "./leaf", .string "./../p/second"])]

/-- The second one leads back to the first by another spelling. -/
def second : Fields := [("extends", .array [.string "./leaf.json", .string "../p/./first.json"])]

/-- Extends nothing. -/
def leaf : Fields := [("files", .array [])]

/-- Extends the leaf twice. -/
def twice : Fields := [("extends", .array [.string "./leaf", .string "./../p/leaf"])]

/-- The four documents, in one directory. -/
def files : FileSystem where
  entries := [(["p"], .directory), (["p", "first.json"], documentFile first),
    (["p", "leaf.json"], documentFile leaf), (["p", "second.json"], documentFile second),
    (["p", "twice.json"], documentFile twice)]
  current := []
  pathLimit := some FileSystem.commonPathLimit

theorem loadsAll_leaf {chain : List Path} {p base : Path} {text : String}
    (hresolve : resolveReference files text (directoryOf p) = .ok base)
    (hfresh : ∀ d ∈ p :: chain, ¬ files.SameFile d base)
    (hread : readDocument files base = .ok leaf) :
    LoadsAll files chain p [.string text] [.node leaf []] :=
  .cons hresolve (.node hfresh ⟨hread, rfl⟩ .nil) .nil

/-- The walk comes back to the first document, and not by the leaf. -/
theorem reaches_first : Reaches files ⟨"/p/first.json"⟩
    [⟨"/p/./../p/second.json"⟩, ⟨"/p/first.json"⟩] ⟨"/p/./../p/../p/./first.json"⟩ := by
  have hfirst : Opens files ⟨"/p/first.json"⟩ first
      ([.string "./leaf"] ++ .string "./../p/second" :: []) :=
    ⟨by decide +kernel, rfl⟩
  have hsecond : Opens files ⟨"/p/./../p/second.json"⟩ second
      ([.string "./leaf.json"] ++ .string "../p/./first.json" :: []) :=
    ⟨by decide +kernel, rfl⟩
  have hleaf : resolveReference files "./leaf" ⟨"/p"⟩ = .ok ⟨"/p/./leaf.json"⟩ := by
    decide +kernel
  have hleaf' : resolveReference files "./leaf.json" ⟨"/p/./../p"⟩ =
      .ok ⟨"/p/./../p/./leaf.json"⟩ := by
    decide +kernel
  have hreach : Reaches files ⟨"/p/first.json"⟩ [⟨"/p/first.json"⟩] ⟨"/p/./../p/second.json"⟩ :=
    .next .start nofun hfirst (loadsAll_leaf hleaf (by decide +kernel) (by decide +kernel))
      (by decide +kernel)
  exact .next hreach (by decide +kernel) hsecond
    (loadsAll_leaf hleaf' (by decide +kernel) (by decide +kernel)) (by decide +kernel)

theorem not_extends_of_leaf {p : Path} (hread : readDocument files p = .ok leaf) (q : Path) :
    ¬ Extends files p q := by
  rintro ⟨document, references, text, hopens, hmem, -⟩
  obtain ⟨rfl, rfl⟩ := hopens.unique (⟨hread, rfl⟩ : Opens files p leaf [])
  exact List.not_mem_nil hmem

/-- Only the leaf is extended here, by two paths. -/
theorem not_sameFile_of_twice {p q : Path}
    (hstart : Relation.ReflTransGen (Extends files) ⟨"/p/twice.json"⟩ p)
    (h : Relation.TransGen (Extends files) p q) : ¬ files.SameFile p q := by
  have htwice : Opens files ⟨"/p/twice.json"⟩ twice [.string "./leaf", .string "./../p/leaf"] :=
    ⟨by decide +kernel, rfl⟩
  have hextends : ∀ r, Extends files ⟨"/p/twice.json"⟩ r →
      readDocument files r = .ok leaf ∧ ¬ files.SameFile ⟨"/p/twice.json"⟩ r := by
    rintro r ⟨document, references, text, hopens, hmem, hresolve⟩
    obtain ⟨rfl, rfl⟩ := hopens.unique htwice
    rw [List.mem_pair, Json.string.injEq, Json.string.injEq] at hmem
    obtain rfl | rfl := hmem
    · have hleaf : resolveReference files "./leaf" (directoryOf ⟨"/p/twice.json"⟩) =
          .ok ⟨"/p/./leaf.json"⟩ := by
        decide +kernel
      obtain rfl := Except.ok.inj (hresolve.symm.trans hleaf)
      decide +kernel
    · have hleaf : resolveReference files "./../p/leaf" (directoryOf ⟨"/p/twice.json"⟩) =
          .ok ⟨"/p/./../p/leaf.json"⟩ := by
        decide +kernel
      obtain rfl := Except.ok.inj (hresolve.symm.trans hleaf)
      decide +kernel
  obtain rfl | ⟨r, hr, hrest⟩ := Relation.ReflTransGen.cases_head hstart
  · obtain ⟨r, hr, hrest⟩ := Relation.TransGen.head'_iff.mp h
    obtain rfl | ⟨s, hs, -⟩ := Relation.ReflTransGen.cases_head hrest
    · exact (hextends _ hr).2
    · exact absurd hs (not_extends_of_leaf (hextends r hr).1 s)
  · obtain rfl | ⟨s, hs, -⟩ := Relation.ReflTransGen.cases_head hrest
    · obtain ⟨s, hs, -⟩ := Relation.TransGen.head'_iff.mp h
      exact absurd hs (not_extends_of_leaf (hextends _ hr).1 s)
    · exact absurd hs (not_extends_of_leaf (hextends r hr).1 s)

/-- The second document leads back to the first, and the document that extends the leaf twice is in
no circle. -/
theorem loadFrom_first_twice :
    (∃ marks, loadFrom files [] ⟨"/p/first.json"⟩ =
        some (.error (.circularExtends ⟨"/p/./../p/../p/./first.json"⟩), marks)) ∧
      ∀ q marks, loadFrom files [] ⟨"/p/twice.json"⟩ ≠
        some (.error (.circularExtends q), marks) := by
  have hnames : files.CanonicalNames :=
    FileSystem.canonicalNames_of_isListed_current (List.forall_mem_nil _)
  have hsame : files.SameFile ⟨"/p/first.json"⟩ ⟨"/p/./../p/../p/./first.json"⟩ := by
    decide +kernel
  constructor
  · exact ((loadFrom_ends_circular_iff hnames _).2.1 _).mpr
      ⟨_, reaches_first, _, by simp, hsame⟩
  · exact (loadFrom_ends_circular_iff hnames _).2.2.1 fun _ _ => not_sameFile_of_twice

end Circle

end MapChain.Config
