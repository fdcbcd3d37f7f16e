import Mathlib.Data.Option.Basic
import MapChain.Config.Extends
import MapChain.Proofs.Config.Tree
import MapChain.Proofs.Files.Ancestors

/-!
# Where packages are looked for

A package is looked for in the directories above a path as it is spelled. What is found in one
directory depends on where the directory is and not on how it is spelled. But the directories above
a path lead back along its trail, which on its turns with `..` comes through directories that are
not above its end, and a package in one of them is found in spite of all that are above it.

## Layers

- **Paths that lead alike**: `LeadsAlike`, kept by joining; what looking up such paths tells.
- **Answers that correspond**: the first of two answers, and the first answer in a list.
- **One directory**: `asked`, the paths that are looked up; `rel_packageIn?`.
- **The search**: the first hit on a trail, and the first hit among the locations above its end.
- **A package beside a directory**: two directories of which the second gets what the first has.

Main result: `resolveReference_follows_trail`.
-/

namespace MapChain

namespace FileSystem

variable {fs : FileSystem}

/-! ## Paths that lead alike -/

/-- Two paths lead to the same location, or neither leads anywhere. -/
structure LeadsAlike (fs : FileSystem) (p q : Path) : Prop where
  left_ne : p.text ≠ ""
  right_ne : q.text ≠ ""
  destination : fs.destination? p = fs.destination? q

theorem join_text_ne {p : Path} (hp : p.text ≠ "") (text : String) : (p.join text).text ≠ "" := by
  by_cases htext : (Path.mk text).isAbsolute
  · rw [Path.join, if_pos htext]
    exact text_ne_empty_of_isAbsolute htext
  · rw [Bool.not_eq_true] at htext
    obtain ⟨first, -, hjoin⟩ | hjoin := join_cases hp htext
    all_goals
      rw [hjoin]
      simp [hp]

/-- Whatever is joined to them, paths that lead alike go on to lead alike. -/
theorem LeadsAlike.join {p q : Path} (h : fs.LeadsAlike p q) (text : String) :
    fs.LeadsAlike (p.join text) (q.join text) := by
  refine ⟨join_text_ne h.left_ne text, join_text_ne h.right_ne text, ?_⟩
  by_cases htext : (Path.mk text).isAbsolute
  · rw [Path.join, Path.join, if_pos htext, if_pos htext]
  · rw [Bool.not_eq_true] at htext
    rw [destination?_join h.left_ne htext, destination?_join h.right_ne htext, h.destination]

/-- Paths that lead alike and are not too long name the same. -/
theorem LeadsAlike.resolve? {p q : Path} (h : fs.LeadsAlike p q) (hp : fs.fits p)
    (hq : fs.fits q) : fs.resolve? p = fs.resolve? q := by
  rw [FileSystem.resolve?, FileSystem.resolve?, if_pos hp, if_pos hq, h.destination]

theorem text_ne_empty_of_destination? {p : Path} {l : Location} (h : fs.destination? p = some l) :
    p.text ≠ "" := by
  rintro hempty
  rw [destination?, if_pos hempty] at h
  cases h

/-- However a path to a location is spelled, it leads where the path of the location leads. -/
theorem leadsAlike_pathOf {p : Path} {l : Location} (h : fs.destination? p = some l)
    (hl : fs.Reachable l) : fs.LeadsAlike p (pathOf l) :=
  ⟨text_ne_empty_of_destination? h, text_ne_empty_of_isAbsolute (isAbsolute_pathOf l),
    h.trans (destination?_pathOf hl).symm⟩

theorem SameFile.symm {p q : Path} (h : fs.SameFile p q) : fs.SameFile q p := by
  obtain ⟨l, hp, hq⟩ := h
  exact ⟨l, hq, hp⟩

theorem SameFile.trans {p q r : Path} (h : fs.SameFile p q) (h' : fs.SameFile q r) :
    fs.SameFile p r := by
  obtain ⟨l, hp, hq⟩ := h
  obtain ⟨m, hq', hr⟩ := h'
  cases hq.symm.trans hq'
  exact ⟨l, hp, hr⟩

theorem sameFile_self {p : Path} (hp : fs.isFile p) : fs.SameFile p p := by
  obtain ⟨l, hl⟩ := exists_resolve?_of_isFile hp
  exact ⟨l, hl, hl⟩

/-- The path if it names a file. -/
def file? (fs : FileSystem) (p : Path) : Option Path := if fs.isFile p then some p else none

/-- Paths that name the same both name a file, the same one, or neither does. -/
theorem rel_file? {p q : Path} (h : fs.resolve? p = fs.resolve? q) :
    Option.Rel fs.SameFile (fs.file? p) (fs.file? q) := by
  have hfile : fs.isFile p = fs.isFile q := by rw [isFile, isFile, h]
  rw [file?, file?, ← hfile]
  split
  next hp =>
    obtain ⟨l, hl⟩ := exists_resolve?_of_isFile hp
    exact .some ⟨l, hl, h.symm.trans hl⟩
  next => exact .none

end FileSystem

/-! ## Answers that correspond -/

section Relations

variable {α β γ δ : Type} {r : γ → δ → Prop}

theorem rel_or {x x' : Option γ} {y y' : Option δ} (h : Option.Rel r x y)
    (h' : Option.Rel r x' y') : Option.Rel r (x.or x') (y.or y') := by
  cases h with
  | some h => exact .some h
  | none => exact h'

theorem rel_findSome? {s : α → β → Prop} {f : α → Option γ} {g : β → Option δ} {as : List α}
    {bs : List β} (h : List.Forall₂ s as bs)
    (hrel : ∀ a ∈ as, ∀ b ∈ bs, s a b → Option.Rel r (f a) (g b)) :
    Option.Rel r (as.findSome? f) (bs.findSome? g) := by
  induction h with
  | nil => exact .none
  | cons hab _ ih =>
    have hfirst := hrel _ List.mem_cons_self _ List.mem_cons_self hab
    have hrest := ih fun a ha b hb =>
      hrel a (List.mem_cons_of_mem _ ha) b (List.mem_cons_of_mem _ hb)
    rw [List.findSome?_cons, List.findSome?_cons]
    generalize f _ = x, g _ = y at hfirst
    cases hfirst with
    | some hfound => exact .some hfound
    | none => exact hrest

end Relations

namespace Config

variable {fs : FileSystem} {reference : String}

/-! ## One directory -/

/-- The configuration that the manifest of a package names, as text. -/
def manifestText? (fs : FileSystem) (package : Path) : Option String :=
  ((readDocument fs (package.join "package.json")).toOption.bind (·.get? "tsconfig")).bind
    Json.string?

theorem fileOrJson?_eq (p : Path) :
    fileOrJson? fs p = (fs.file? p).or (fs.file? (p.append ".json")) := by
  rw [fileOrJson?, FileSystem.file?, FileSystem.file?]
  split <;> rfl

theorem manifestConfig?_eq (package : Path) :
    manifestConfig? fs package =
      (manifestText? fs package).bind fun text => fs.file? (package.join text) := by
  rw [manifestConfig?, manifestText?]
  cases readDocument fs (package.join "package.json") with
  | error e => rfl
  | ok manifest =>
    dsimp only [Except.toOption, Option.bind_some]
    cases manifest.get? "tsconfig" with
    | none => rfl
    | some v => cases v <;> rfl

theorem packageConfig?_eq (package : Path) :
    packageConfig? fs package =
      (manifestConfig? fs package).or (fs.file? (package.join fileName)) := by
  rw [packageConfig?, FileSystem.file?]
  cases manifestConfig? fs package <;> rfl

/-- The directory that a package has in a directory. -/
def packagePath (name : String) (dir : Path) : Path := (dir.join packagesName).join name

theorem packageIn?_eq (name : String) (dir : Path) :
    packageIn? fs name dir = (fileOrJson? fs (packagePath name dir)).or
      (if fs.isDirectory (packagePath name dir) then packageConfig? fs (packagePath name dir)
        else none) := by
  rw [packageIn?, packagePath]
  cases fileOrJson? fs ((dir.join packagesName).join name) <;> rfl

/-- The paths that are looked up for a package in a directory. -/
def asked (fs : FileSystem) (name : String) (dir : Path) : List Path :=
  let package := packagePath name dir
  [package, package.append ".json", package.join "package.json", package.join fileName] ++
    ((manifestText? fs package).map package.join).toList

/-- What a manifest names depends on what its path names. -/
theorem manifestText?_congr {p q : Path}
    (h : fs.resolve? (p.join "package.json") = fs.resolve? (q.join "package.json")) :
    manifestText? fs p = manifestText? fs q := by
  have hread : fs.read? (p.join "package.json") = fs.read? (q.join "package.json") := by
    rw [FileSystem.read?, FileSystem.read?, h]
  have hdocument : (readDocument fs (p.join "package.json")).toOption =
      (readDocument fs (q.join "package.json")).toOption := by
    rw [readDocument, readDocument, hread]
    -- Errors tell the path and nothing else does
    split
    next => rfl
    next =>
      split
      next => rfl
      next text _ => cases Lenient.read text <;> rfl
  rw [manifestText?, manifestText?, hdocument]

/-- Packages that lead alike name the same file in their manifests, or neither names one. -/
theorem rel_manifestConfig? {p q : Path} (h : fs.LeadsAlike p q)
    (hp : fs.fits (p.join "package.json")) (hq : fs.fits (q.join "package.json"))
    (hptext : ∀ text, manifestText? fs p = some text → fs.fits (p.join text))
    (hqtext : ∀ text, manifestText? fs q = some text → fs.fits (q.join text)) :
    Option.Rel fs.SameFile (manifestConfig? fs p) (manifestConfig? fs q) := by
  have heq := manifestText?_congr ((h.join "package.json").resolve? hp hq)
  rw [manifestConfig?_eq, manifestConfig?_eq, ← heq]
  -- Both manifests name the same text, which is joined to each package
  cases htext : manifestText? fs p with
  | none => exact .none
  | some text =>
    exact FileSystem.rel_file? ((h.join text).resolve? (hptext text htext)
      (hqtext text (heq ▸ htext)))

/-- No path that is looked up for a package in a directory is too long. -/
def AskedFit (fs : FileSystem) (name : String) (dir : Path) : Prop :=
  ∀ p ∈ asked fs name dir, fs.fits p

instance (fs : FileSystem) (name : String) (dir : Path) : Decidable (AskedFit fs name dir) :=
  inferInstanceAs (Decidable (∀ p ∈ asked fs name dir, fs.fits p))

/-- What is put right after the path of a package is put after its name. -/
theorem append_packagePath (hbare : isPathReference reference = false) (dir : Path) :
    (packagePath reference dir).append ".json" =
      (dir.join packagesName).join (reference ++ ".json") := by
  rw [isPathReference, Bool.or_eq_false_iff] at hbare
  refine FileSystem.append_join _ hbare.2 ?_
  have hrelative := hbare.2
  rw [Path.isAbsolute] at hrelative ⊢
  rw [String.toList_append]
  cases h : reference.toList with
  | nil => rfl
  | cons c chars =>
    rw [h] at hrelative
    exact hrelative

/-- **What a directory has depends on where it is**: directories that lead alike both have a
package, with the same file for it, or neither has. -/
theorem rel_packageIn? {a b : Path} (h : fs.LeadsAlike a b)
    (hbare : isPathReference reference = false) (ha : AskedFit fs reference a)
    (hb : AskedFit fs reference b) :
    Option.Rel fs.SameFile (packageIn? fs reference a) (packageIn? fs reference b) := by
  simp only [AskedFit, asked, List.cons_append, List.nil_append, List.forall_mem_cons,
    Option.mem_toList, Option.map_eq_some_iff, forall_exists_index, and_imp,
    forall_apply_eq_imp_iff₂] at ha hb
  obtain ⟨hapackage, hajson, hamanifest, hafile, hatext⟩ := ha
  obtain ⟨hbpackage, hbjson, hbmanifest, hbfile, hbtext⟩ := hb
  -- Each path that is looked up is joined to the one directory as to the other
  have hpackage : fs.LeadsAlike (packagePath reference a) (packagePath reference b) :=
    (h.join packagesName).join reference
  have hjson : fs.LeadsAlike ((packagePath reference a).append ".json")
      ((packagePath reference b).append ".json") := by
    rw [append_packagePath hbare, append_packagePath hbare]
    exact (h.join packagesName).join _
  have hmanifest := rel_manifestConfig? hpackage hamanifest hbmanifest hatext hbtext
  have hresolve := hpackage.resolve? hapackage hbpackage
  have hdirectory : fs.isDirectory (packagePath reference a) =
      fs.isDirectory (packagePath reference b) := by
    rw [FileSystem.isDirectory, FileSystem.isDirectory, hresolve]
  rw [packageIn?_eq, packageIn?_eq, fileOrJson?_eq, fileOrJson?_eq, packageConfig?_eq,
    packageConfig?_eq, ← hdirectory]
  refine rel_or (rel_or (FileSystem.rel_file? hresolve)
    (FileSystem.rel_file? (hjson.resolve? hajson hbjson))) ?_
  split
  next =>
    exact rel_or hmanifest
      (FileSystem.rel_file? ((hpackage.join fileName).resolve? hafile hbfile))
  next => exact .none

/-! ## The search -/

/-- The file that a package has in the directory at a location. -/
def packageAt? (fs : FileSystem) (name : String) (l : Location) : Option Path :=
  packageIn? fs name (FileSystem.pathOf l)

/-- Both fail to find a file, or both find the same one. -/
inductive SameOutcome (fs : FileSystem) :
    Except ConfigError Path → Except ConfigError Path → Prop
  | found {p q : Path} (h : fs.SameFile p q) : SameOutcome fs (.ok p) (.ok q)
  | notFound (p q : Path) : SameOutcome fs (.error (.notFound p)) (.error (.notFound q))

theorem sameOutcome_iff_rel {dir dir' : Path} (hbare : isPathReference reference = false) :
    SameOutcome fs (resolveReference fs reference dir) (resolveReference fs reference dir') ↔
      Option.Rel fs.SameFile (dir.ancestors.findSome? (packageIn? fs reference))
        (dir'.ancestors.findSome? (packageIn? fs reference)) := by
  rw [resolveReference, resolveReference, hbare, if_neg Bool.false_ne_true,
    if_neg Bool.false_ne_true]
  generalize dir.ancestors.findSome? _ = x, dir'.ancestors.findSome? _ = y
  constructor
  · intro h
    cases x <;> cases y <;> cases h
    · exact .none
    · exact .some ‹_›
  · rintro (h | -)
    · exact .found h
    · exact .notFound _ _

/-- The search from the path of a location goes through the locations above. -/
theorem findSome?_ancestors_pathOf (reference : String) {l : Location} (hl : fs.Reachable l) :
    (FileSystem.pathOf l).ancestors.findSome? (packageIn? fs reference) =
      (FileSystem.aboves l).findSome? (packageAt? fs reference) := by
  rw [FileSystem.ancestors_pathOf hl.isStep, List.findSome?_map]
  rfl

/-- A location above the end of a trail that is the first on the trail to have a package is also the
first above. -/
theorem findSome?_aboves {parts : List String} {l m : Location} {p : Path}
    {before after : List Location} (hl : fs.walk? [] parts = some l)
    (htrail : fs.trail parts = before ++ m :: after) (hm : packageAt? fs reference m = some p)
    (hbefore : ∀ r ∈ before, packageAt? fs reference r = none) (hml : m <+: l) :
    (FileSystem.aboves l).findSome? (packageAt? fs reference) = some p := by
  obtain ⟨between, rest, heq, hbetween⟩ := FileSystem.aboves_eq_append hml
  refine List.findSome?_eq_some_iff.mpr ⟨between, m, rest, heq, hm, fun r hr => hbefore r ?_⟩
  have hrl : r <+: l := FileSystem.mem_aboves.mp (heq ▸ List.mem_append_left _ hr)
  exact FileSystem.mem_of_trail_eq hl htrail (hbetween r hr).1 (hbetween r hr).2 hrl

theorem resolveReference_eq_ok_iff {dir q : Path} (hbare : isPathReference reference = false) :
    resolveReference fs reference dir = .ok q ↔
      dir.ancestors.findSome? (packageIn? fs reference) = some q := by
  rw [resolveReference, hbare, if_neg Bool.false_ne_true]
  cases dir.ancestors.findSome? (packageIn? fs reference) <;> simp

theorem rel_congr_left {x y z : Option Path} (h : Option.Rel fs.SameFile x y) :
    Option.Rel fs.SameFile x z ↔ Option.Rel fs.SameFile y z := by
  cases h with
  | none => exact Iff.rfl
  | some hxy =>
    constructor
    · rintro (hxz | -)
      exact .some (hxy.symm.trans hxz)
    · rintro (hyz | -)
      exact .some (hxy.trans hyz)

/-- The first hit on a trail is the same as the first hit among the locations above its end, unless
it is at none of these and has not the file that they have. -/
theorem rel_trail_iff {parts : List String} {l : Location} (hl : fs.walk? [] parts = some l)
    (hfile : ∀ q, (FileSystem.aboves l).findSome? (packageAt? fs reference) = some q →
      fs.isFile q) :
    Option.Rel fs.SameFile ((fs.trail parts).findSome? (packageAt? fs reference))
        ((FileSystem.aboves l).findSome? (packageAt? fs reference)) ↔
      ∀ m, (fs.trail parts).find? (fun r => (packageAt? fs reference r).isSome) = some m →
        m <+: l ∨ ∃ p q, packageAt? fs reference m = some p ∧
          (FileSystem.aboves l).findSome? (packageAt? fs reference) = some q ∧
            fs.SameFile p q := by
  cases htrail : (fs.trail parts).findSome? (packageAt? fs reference) with
  | none =>
    -- All that is above the end is on the trail
    rw [List.findSome?_eq_none_iff] at htrail
    have haboves : (FileSystem.aboves l).findSome? (packageAt? fs reference) = none :=
      List.findSome?_eq_none_iff.mpr fun r hr =>
        htrail r (FileSystem.mem_trail hl (FileSystem.mem_aboves.mp hr))
    rw [haboves]
    refine iff_of_true .none fun m hm => ?_
    have hsome := List.find?_some hm
    rw [htrail m (List.mem_of_find?_eq_some hm)] at hsome
    cases hsome
  | some p =>
    obtain ⟨before, m, after, heq, hm, hbefore⟩ := List.findSome?_eq_some_iff.mp htrail
    have hfind : (fs.trail parts).find? (fun r => (packageAt? fs reference r).isSome) = some m :=
      List.find?_eq_some_iff_append.mpr
        ⟨by simp [hm], before, after, heq, fun r hr => by simp [hbefore r hr]⟩
    constructor
    · -- There is one first location, so the two hits are for it and among those above
      intro hrel m' hm'
      cases hfind.symm.trans hm'
      generalize (FileSystem.aboves l).findSome? (packageAt? fs reference) = x at hrel ⊢
      cases hrel with
      | some hsame => exact .inr ⟨p, _, hm, rfl, hsame⟩
    · intro h
      obtain hml | ⟨p', q, hp', hq, hsame⟩ := h m hfind
      · have haboves := findSome?_aboves hl heq hm hbefore hml
        rw [haboves]
        exact .some (FileSystem.sameFile_self (hfile p haboves))
      · cases hm.symm.trans hp'
        rw [hq]
        exact .some hsame

section Search

variable {dir : Path} {l : Location} (hbare : isPathReference reference = false)
  (habs : dir.isAbsolute) (hdir : fs.resolve? dir = some l)
  (hdirs : ∀ a ∈ dir.ancestors, AskedFit fs reference a)
  (htrail : ∀ m ∈ fs.trail dir.parts, AskedFit fs reference (FileSystem.pathOf m))

include hbare habs hdir hdirs htrail

/-- The search from a path finds what the first location on its trail that has the package has for
it. -/
theorem rel_search :
    Option.Rel fs.SameFile (dir.ancestors.findSome? (packageIn? fs reference))
      ((fs.trail dir.parts).findSome? (packageAt? fs reference)) := by
  have hleads := FileSystem.leads_ancestors habs (FileSystem.destination?_of_resolve? hdir)
  refine rel_findSome? hleads fun a ha m hm hlead => ?_
  exact rel_packageIn? (FileSystem.leadsAlike_pathOf hlead (FileSystem.reachable_of_mem_trail hm))
    hbare (hdirs a ha) (htrail m hm)

/-- From a directory as it is spelled and from the path of its location a package is found alike,
or in neither way, unless the first location on the trail that has it is not above the directory and
has not the file that is found above. -/
theorem sameOutcome_iff :
    SameOutcome fs (resolveReference fs reference dir)
        (resolveReference fs reference (FileSystem.pathOf l)) ↔
      ∀ m, (fs.trail dir.parts).find? (fun r => (packageAt? fs reference r).isSome) = some m →
        m <+: l ∨ ∃ p q, packageAt? fs reference m = some p ∧
          resolveReference fs reference (FileSystem.pathOf l) = .ok q ∧ fs.SameFile p q := by
  have hdestination := FileSystem.destination?_of_resolve? hdir
  have hsearch := findSome?_ancestors_pathOf reference
    (FileSystem.reachable_of_destination? habs hdestination)
  rw [sameOutcome_iff_rel hbare, rel_congr_left (rel_search hbare habs hdir hdirs htrail)]
  simp only [resolveReference_eq_ok_iff hbare, hsearch]
  refine rel_trail_iff (FileSystem.walk?_parts habs hdestination) fun q hq => ?_
  exact isFile_of_resolveReference ((resolveReference_eq_ok_iff hbare).mpr (hsearch.trans hq))

/-- Where a directory is spelled without a part that leads up, a package is found just as from the
path of its location. -/
theorem sameOutcome_of_notMem (hparent : ".." ∉ dir.parts) :
    SameOutcome fs (resolveReference fs reference dir)
      (resolveReference fs reference (FileSystem.pathOf l)) := by
  have hdestination := FileSystem.destination?_of_resolve? hdir
  have hl : l = dir.parts :=
    FileSystem.eq_append_of_walk? (FileSystem.walk?_parts habs hdestination) fun part hpart =>
      FileSystem.isStep_of_mem_parts hpart fun h => hparent (h ▸ hpart)
  refine (sameOutcome_iff hbare habs hdir hdirs htrail).mpr fun m hm => .inl ?_
  have hmem := List.mem_of_find?_eq_some hm
  rw [← hl, (FileSystem.reachable_of_destination? habs hdestination).trail] at hmem
  exact FileSystem.mem_aboves.mp hmem

/-- **A package is looked for along the trail.** The directories above a path lead back along its
trail, and those above the path of a location lead straight up. A package is found in both ways
alike, or in neither, unless the first location on the trail that has it is not above the directory
and has not the file that is found above. -/
theorem resolveReference_follows_trail :
    List.Forall₂ (fun a m => fs.destination? a = some m) dir.ancestors (fs.trail dir.parts) ∧
      (FileSystem.pathOf l).ancestors = (FileSystem.aboves l).map FileSystem.pathOf ∧
      (SameOutcome fs (resolveReference fs reference dir)
          (resolveReference fs reference (FileSystem.pathOf l)) ↔
        ∀ m, (fs.trail dir.parts).find? (fun r => (packageAt? fs reference r).isSome) = some m →
          m <+: l ∨ ∃ p q, packageAt? fs reference m = some p ∧
            resolveReference fs reference (FileSystem.pathOf l) = .ok q ∧ fs.SameFile p q) := by
  have hdestination := FileSystem.destination?_of_resolve? hdir
  have hreachable := FileSystem.reachable_of_destination? habs hdestination
  exact ⟨FileSystem.leads_ancestors habs hdestination,
    FileSystem.ancestors_pathOf hreachable.isStep, sameOutcome_iff hbare habs hdir hdirs htrail⟩

end Search

/-! ## A package beside a directory -/

/-- Two directories. One package is in the first of them and another one is above both. -/
def twoDirectories : FileSystem where
  entries := [(["app"], .directory), (["base"], .directory),
    (["app", packagesName], .directory), (["app", packagesName, "pkg.json"], .file .empty false),
    ([packagesName], .directory), ([packagesName, "own.json"], .file .empty false)]
  current := []
  pathLimit := some FileSystem.commonPathLimit

/-- The package above both is found however the second directory is spelled. -/
theorem resolveReference_own :
    (isPathReference "own" = false ∧ (Path.mk "/app/../base").isAbsolute ∧
      twoDirectories.resolve? ⟨"/app/../base"⟩ = some ["base"] ∧
      (∀ a ∈ (Path.mk "/app/../base").ancestors, AskedFit twoDirectories "own" a) ∧
      ∀ m ∈ twoDirectories.trail (Path.mk "/app/../base").parts,
        AskedFit twoDirectories "own" (FileSystem.pathOf m)) ∧
    SameOutcome twoDirectories (resolveReference twoDirectories "own" ⟨"/app/../base"⟩)
      (resolveReference twoDirectories "own" (FileSystem.pathOf ["base"])) := by
  have hbare : isPathReference "own" = false := by decide
  have hdir : twoDirectories.resolve? ⟨"/app/../base"⟩ = some ["base"] := by decide +kernel
  have hdirs : ∀ a ∈ (Path.mk "/app/../base").ancestors, AskedFit twoDirectories "own" a := by
    decide +kernel
  have htrail : ∀ m ∈ twoDirectories.trail (Path.mk "/app/../base").parts,
      AskedFit twoDirectories "own" (FileSystem.pathOf m) := by
    decide +kernel
  refine ⟨⟨hbare, by decide, hdir, hdirs, htrail⟩, ?_⟩
  refine (resolveReference_follows_trail hbare (by decide) hdir hdirs htrail).2.2.mpr ?_
  -- On the trail only the root has the package, and the root is above every location
  intro m hm
  have hfind : (twoDirectories.trail (Path.mk "/app/../base").parts).find?
      (fun r => (packageAt? twoDirectories "own" r).isSome) = some [] := by
    decide +kernel
  cases hfind.symm.trans hm
  exact .inl List.nil_prefix

/-- The package in the first directory is found from the second one where its path comes through the
first. -/
theorem resolveReference_beside :
    (isPathReference "pkg" = false ∧ twoDirectories.resolve? ⟨"/app/../base"⟩ = some ["base"] ∧
      twoDirectories.isDirectory ⟨"/app/../base"⟩) ∧
    resolveReference twoDirectories "pkg" ⟨"/app/../base"⟩ = .ok ⟨"/app/node_modules/pkg.json"⟩ ∧
    resolveReference twoDirectories "pkg" (FileSystem.pathOf ["base"]) =
      .error (.notFound ⟨"/base/node_modules/pkg"⟩) ∧
    ¬ SameOutcome twoDirectories (resolveReference twoDirectories "pkg" ⟨"/app/../base"⟩)
      (resolveReference twoDirectories "pkg" (FileSystem.pathOf ["base"])) := by
  have hfound : resolveReference twoDirectories "pkg" ⟨"/app/../base"⟩ =
      .ok ⟨"/app/node_modules/pkg.json"⟩ := by
    decide +kernel
  have hnotFound : resolveReference twoDirectories "pkg" (FileSystem.pathOf ["base"]) =
      .error (.notFound ⟨"/base/node_modules/pkg"⟩) := by
    decide +kernel
  refine ⟨⟨by decide, by decide +kernel, by decide +kernel⟩, hfound, hnotFound, ?_⟩
  rw [hfound, hnotFound]
  nofun

end Config

end MapChain
