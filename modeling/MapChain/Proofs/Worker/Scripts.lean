import Mathlib.Data.List.Nodup
import Mathlib.Data.Set.Function
import MapChain.Proofs.Files.Entries
import MapChain.Worker.Script

/-!
# Scripts that are installed one after another

Installing a script compares digests, makes a lock file beside the script, compares again and may
write. The lock file may be the script of another installation, and a script may be the lock file of
one. All the same a directory is a plain store of scripts: each one has the last source that was
installed under its name, and nothing else is touched, apart from lock files that were missing.

Digests are taken to tell the texts of a run apart, `CollisionFree`, and names to be plain ones,
which lead to an entry of the directory.

## Layers

- **Runs**: `installAll?`, and the last source of a name.
- **What a run leaves**: `Stored`, which two runs after each other keep.
- **One installation**: `ensure_eq_ok_iff` says all that one can do, and `Stored.of_ensure` what it
  leaves.
- **All installations**: `Stored.of_installAll?`, and `exists_installAll?` for runs that go through.

Main result: `installAll_stores`.
-/

namespace MapChain.Script

open FileSystem (LeadsTo IsStep)

/-! ## Runs -/

/-- A script to be installed, and the name of its file. -/
structure Installation where
  name : String
  source : String

/-- Installs scripts one after the other, as long as none fails. -/
def installAll? (dir : Path) : FileSystem → List Installation → Option FileSystem
  | fs, [] => some fs
  | fs, c :: calls =>
    match ensure fs (some dir) c.name c.source with
    | (.ok _, fs) => installAll? dir fs calls
    | (.error _, _) => none

/-- The source that was installed last under a name. -/
def lastSource? (calls : List Installation) (name : String) : Option String :=
  (calls.reverse.find? (·.name == name)).map Installation.source

variable {fs fs₁ fs' : FileSystem} {dir p : Path} {l m : Location} {c : Installation}
  {calls before after : List Installation} {name source : String}

theorem installAll?_cons_eq_some_iff :
    installAll? dir fs (c :: calls) = some fs' ↔
      ∃ p fs₁, ensure fs (some dir) c.name c.source = (.ok p, fs₁) ∧
        installAll? dir fs₁ calls = some fs' := by
  rw [installAll?]
  split
  next q fs₂ h => simp [h]
  next h => simp [h]

theorem installAll?_append (fs : FileSystem) :
    installAll? dir fs (before ++ after) =
      (installAll? dir fs before).bind (installAll? dir · after) := by
  induction before generalizing fs with
  | nil => rfl
  | cons c before ih =>
    rw [List.cons_append, installAll?, installAll?]
    split
    · exact ih _
    · rfl

theorem lastSource?_append :
    lastSource? (before ++ after) name =
      (lastSource? after name).or (lastSource? before name) := by
  simp [lastSource?, Option.map_or]

theorem lastSource?_singleton_eq_some_iff :
    lastSource? [c] name = some source ↔ c.name = name ∧ c.source = source := by
  simp [lastSource?]

theorem lastSource?_eq_none_iff :
    lastSource? calls name = none ↔ ∀ c ∈ calls, c.name ≠ name := by
  simp [lastSource?]

theorem exists_of_lastSource? (h : lastSource? calls name = some source) :
    ∃ c ∈ calls, c.source = source := by
  obtain ⟨c, hc, rfl⟩ := Option.map_eq_some_iff.mp h
  exact ⟨c, List.mem_reverse.mp (List.mem_of_find?_eq_some hc), rfl⟩

/-! ## What a run leaves -/

/-- A location is that of a script which is installed. -/
def IsScript (l : Location) (calls : List Installation) (m : Location) : Prop :=
  ∃ c ∈ calls, m = l ++ [c.name]

/-- A location is that of the lock file of a script which is installed. -/
def IsLock (l : Location) (calls : List Installation) (m : Location) : Prop :=
  ∃ c ∈ calls, m = l ++ [c.name ++ ".lock"]

/-- What installations in the directory at a location make of a file system: each script has its
last source, what else there was is kept, and only empty lock files are new. -/
structure Stored (fs : FileSystem) (l : Location) (calls : List Installation)
    (fs' : FileSystem) : Prop where
  script : ∀ name source, lastSource? calls name = some source →
    fs'.contents? (l ++ [name]) = some source.toUTF8
  kept : ∀ m e, ¬ IsScript l calls m → fs.lookup? m = some e → fs'.lookup? m = some e
  made : ∀ m, ¬ IsScript l calls m → fs.lookup? m = none →
    fs'.lookup? m = none ∨ IsLock l calls m ∧ fs'.lookup? m = some (.file .empty false)
  grows : fs.Grows fs'

theorem isScript_append :
    IsScript l (before ++ after) m ↔ IsScript l before m ∨ IsScript l after m := by
  simp [IsScript, or_and_right, exists_or]

theorem IsLock.append_left (h : IsLock l before m) : IsLock l (before ++ after) m := by
  obtain ⟨c, hc, hm⟩ := h
  exact ⟨c, List.mem_append_left _ hc, hm⟩

theorem IsLock.append_right (h : IsLock l after m) : IsLock l (before ++ after) m := by
  obtain ⟨c, hc, hm⟩ := h
  exact ⟨c, List.mem_append_right _ hc, hm⟩

theorem isScript_iff_lastSource? :
    IsScript l calls m ↔ ∃ name source, m = l ++ [name] ∧ lastSource? calls name = some source := by
  constructor
  · rintro ⟨c, hc, rfl⟩
    cases h : lastSource? calls c.name with
    | none => exact absurd rfl (lastSource?_eq_none_iff.mp h c hc)
    | some source => exact ⟨c.name, source, rfl, h⟩
  · rintro ⟨name, source, rfl, h⟩
    by_contra hnot
    have hnone : lastSource? calls name = none :=
      lastSource?_eq_none_iff.mpr fun c hc hname => hnot ⟨c, hc, by rw [hname]⟩
    rw [hnone] at h
    cases h

theorem Stored.nil (fs : FileSystem) (l : Location) : Stored fs l [] fs where
  script name source h := by cases h
  kept _ _ _ h := h
  made _ _ h := .inl h
  grows := .refl fs

/-- Two runs after each other are one run of all their installations. -/
theorem Stored.append (h : Stored fs l before fs₁) (h' : Stored fs₁ l after fs') :
    Stored fs l (before ++ after) fs' where
  script name source hlast := by
    rw [lastSource?_append] at hlast
    cases hafter : lastSource? after name with
    | some _ =>
      rw [hafter] at hlast
      cases hlast
      exact h'.script name source hafter
    | none =>
      -- The second run has no script of this name, so it keeps the file
      rw [hafter, Option.none_or] at hlast
      obtain ⟨executable, hfile⟩ := FileSystem.contents?_eq_some_iff.mp (h.script name source hlast)
      have hnot : ¬ IsScript l after (l ++ [name]) := by
        rintro ⟨c, hc, hname⟩
        apply lastSource?_eq_none_iff.mp hafter c hc
        simpa using hname.symm
      exact FileSystem.contents?_eq_some_iff.mpr ⟨executable, h'.kept _ _ hnot hfile⟩
  kept m e hnot hm := by
    rw [isScript_append, not_or] at hnot
    exact h'.kept m e hnot.2 (h.kept m e hnot.1 hm)
  made m hnot hm := by
    rw [isScript_append, not_or] at hnot
    obtain hnone | ⟨hlock, hfile⟩ := h.made m hnot.1 hm
    · exact (h'.made m hnot.2 hnone).imp_right fun hmade => ⟨hmade.1.append_right, hmade.2⟩
    · exact .inr ⟨hlock.append_left, h'.kept m _ hnot.2 hfile⟩
  grows := h.grows.trans h'.grows

/-- What is anywhere after a run is a script of it, was there before, or is an empty file. -/
theorem Stored.lookup?_cases (h : Stored fs l calls fs') {e : FileEntry}
    (hm : fs'.lookup? m = some e) :
    (∃ c ∈ calls, fs'.contents? m = some c.source.toUTF8) ∨ fs.lookup? m = some e ∨
      e = .file .empty false := by
  by_cases hscript : IsScript l calls m
  · obtain ⟨name, source, rfl, hlast⟩ := isScript_iff_lastSource?.mp hscript
    obtain ⟨c, hc, rfl⟩ := exists_of_lastSource? hlast
    exact .inl ⟨c, hc, h.script name _ hlast⟩
  · right
    cases hfs : fs.lookup? m with
    | some before =>
      left
      rw [← h.kept m before hscript hfs, hm]
    | none =>
      right
      obtain hnone | ⟨-, hempty⟩ := h.made m hscript hfs
      · rw [hnone] at hm
        cases hm
      · exact Option.some.inj (hm.symm.trans hempty)

/-- Only files are new, so directories are where they were. -/
theorem Stored.isDirectoryAt_iff (h : Stored fs l calls fs') :
    fs'.isDirectoryAt m ↔ fs.isDirectoryAt m := by
  refine ⟨fun hm => ?_, h.grows.directory m⟩
  rw [FileSystem.isDirectoryAt_iff] at hm ⊢
  obtain ⟨c, -, hfile⟩ | hbefore | hempty := h.lookup?_cases hm
  · simp [FileSystem.contents?, hm] at hfile
  · exact hbefore
  · cases hempty

/-! ## Digests -/

/-- The texts that a run comes across: what files hold, an empty file, and the scripts. -/
def texts (fs : FileSystem) (calls : List Installation) : Set ByteArray :=
  {b | (∃ m, fs.contents? m = some b) ∨ b = .empty ∨ ∃ c ∈ calls, b = c.source.toUTF8}

/-- No two texts that a run comes across have one digest. -/
def CollisionFree (fs : FileSystem) (calls : List Installation) : Prop :=
  Set.InjOn digest (texts fs calls)

/-- A run adds no texts to those that it comes across. -/
theorem Stored.texts_subset (h : Stored fs l before fs₁) (after : List Installation) :
    texts fs₁ after ⊆ texts fs (before ++ after) := by
  rintro b (⟨m, hm⟩ | rfl | ⟨c, hc, rfl⟩)
  · obtain ⟨executable, hfile⟩ := FileSystem.contents?_eq_some_iff.mp hm
    obtain ⟨c, hc, hscript⟩ | hbefore | hempty := h.lookup?_cases hfile
    · rw [hscript, Option.some.injEq] at hm
      exact .inr (.inr ⟨c, List.mem_append_left _ hc, hm.symm⟩)
    · exact .inl ⟨m, FileSystem.contents?_eq_some_iff.mpr ⟨executable, hbefore⟩⟩
    · cases hempty
      exact .inr (.inl rfl)
  · exact .inr (.inl rfl)
  · exact .inr (.inr ⟨c, List.mem_append_right _ hc, rfl⟩)

theorem CollisionFree.of_stored (h : CollisionFree fs (before ++ after))
    (hstored : Stored fs l before fs₁) : CollisionFree fs₁ after :=
  Set.InjOn.mono (hstored.texts_subset after) h

theorem CollisionFree.of_subset (h : CollisionFree fs calls) (hsub : before ⊆ calls) :
    CollisionFree fs before := by
  apply Set.InjOn.mono _ h
  rintro b (hfile | hempty | ⟨c, hc, hb⟩)
  · exact .inl hfile
  · exact .inr (.inl hempty)
  · exact .inr (.inr ⟨c, hsub hc, hb⟩)

/-- As far as no two texts have one digest, a file holds a script if it has its source. -/
theorem CollisionFree.holds_iff (h : CollisionFree fs calls) (hc : c ∈ calls) (p : Path) :
    holds fs p c.source ↔ fs.read? p = some c.source.toUTF8 := by
  unfold holds
  cases hread : fs.read? p with
  | none => simp
  | some b =>
    obtain ⟨m, -, hm⟩ := Option.bind_eq_some_iff.mp hread
    have hb : b ∈ texts fs calls := .inl ⟨m, hm⟩
    have hsource : c.source.toUTF8 ∈ texts fs calls := .inr (.inr ⟨c, hc, rfl⟩)
    rw [beq_iff_eq, Option.some.injEq]
    exact h.eq_iff hb hsource

/-! ## One installation -/

theorem isStep_lock (h : IsStep name) : IsStep (name ++ ".lock") := by
  -- The name is longer than any that stands for a directory
  have hlength {text : String} (htext : text.length < ".lock".length) :
      name ++ ".lock" ≠ text := by
    intro heq
    rw [← heq, String.length_append] at htext
    exact Nat.not_lt.mpr (Nat.le_add_left _ _) htext
  refine ⟨?_, hlength (by decide), ?_⟩
  · rw [not_or]
    exact ⟨hlength (by decide), hlength (by decide)⟩
  · rw [String.toList_append, List.mem_append, not_or]
    exact ⟨h.notMem, by decide⟩

/-- A lock file is not the file of its own script. -/
theorem lock_ne (l : Location) (name : String) : l ++ [name] ≠ l ++ [name ++ ".lock"] := by
  intro h
  have hlength := congrArg String.length (List.cons.inj (List.append_cancel_left h)).1
  rw [String.length_append] at hlength
  exact absurd hlength (by simp)

/-- The files of a script and of its lock can be written. -/
structure Writable (fs : FileSystem) (dir : Path) (l : Location) (name : String) : Prop where
  script_fits : fs.fits (dir.join name)
  lock_fits : fs.fits (lockPath dir name)
  script_admits : fs.Admits l name
  lock_admits : fs.Admits l (name ++ ".lock")

/-- A file system with a lock file opened and its script written. -/
def installed (fs : FileSystem) (l : Location) (name source : String) : FileSystem :=
  (fs.touched (l ++ [name ++ ".lock"])).written (l ++ [name]) source.toUTF8

theorem lookup?_script_touched (fs : FileSystem) (l : Location) (name : String) :
    (fs.touched (l ++ [name ++ ".lock"])).lookup? (l ++ [name]) = fs.lookup? (l ++ [name]) := by
  rw [FileSystem.lookup?_touched fs (by simp), if_neg fun h => lock_ne l name h.1]

/-- Opening a lock file changes nothing about its script. -/
theorem holds_touched (hdir : fs.LeadsTo dir l) (hname : IsStep name)
    (hlock : fs.Admits l (name ++ ".lock")) (source : String) :
    holds (fs.touched (l ++ [name ++ ".lock"])) (dir.join name) source =
      holds fs (dir.join name) source := by
  have hgrows := FileSystem.Grows.touched (by simp) hlock.not_isDirectoryAt
  rw [holds, holds, (hdir.grows hgrows).read?_join hname, hdir.read?_join hname, hgrows.fits,
    FileSystem.contents?, FileSystem.contents?, lookup?_script_touched]

theorem write?_touched (hdir : fs.LeadsTo dir l) (hname : IsStep name)
    (hlock : fs.Admits l (name ++ ".lock")) (source : String) :
    (fs.touched (l ++ [name ++ ".lock"])).write? (dir.join name) source.toUTF8 = some fs' ↔
      fs.fits (dir.join name) ∧ fs.Admits l name ∧ fs' = installed fs l name source := by
  have hgrows := FileSystem.Grows.touched (by simp) hlock.not_isDirectoryAt
  rw [(hdir.grows hgrows).write?_join hname, hgrows.fits, FileSystem.Admits, FileSystem.contents?,
    lookup?_script_touched]
  rfl

theorem writeLocked_eq_ok_iff (hdir : fs.LeadsTo dir l) (hname : IsStep name)
    (hnot : ¬ holds fs (dir.join name) source) :
    writeLocked fs dir name source = (.ok p, fs') ↔
      p = dir.join name ∧ Writable fs dir l name ∧ fs' = installed fs l name source := by
  unfold writeLocked
  constructor
  · intro h
    split at h
    next => cases h
    next locked htouch =>
      obtain ⟨hlockFits, hlock, rfl⟩ := (hdir.touch?_join (isStep_lock hname)).mp htouch
      -- The second comparison comes to what the first one did, so the script is written
      rw [holds_touched hdir hname hlock, if_neg hnot] at h
      split at h
      next => cases h
      next written hwrite =>
        obtain ⟨hfits, hadmits, rfl⟩ := (write?_touched hdir hname hlock source).mp hwrite
        cases h
        exact ⟨rfl, ⟨hfits, hlockFits, hadmits, hlock⟩, rfl⟩
  · rintro ⟨rfl, hwritable, rfl⟩
    have htouch := (hdir.touch?_join (isStep_lock hname)).mpr
      ⟨hwritable.lock_fits, hwritable.lock_admits, rfl⟩
    have hwrite := (write?_touched hdir hname hwritable.lock_admits source).mpr
      ⟨hwritable.script_fits, hwritable.script_admits, rfl⟩
    rw [lockPath, htouch]
    simp only [holds_touched hdir hname hwritable.lock_admits, if_neg hnot, hwrite]

/-- **All that an installation can do**: nothing if the script is there, and write it and its lock
if it is not. -/
theorem ensure_eq_ok_iff (hdir : fs.LeadsTo dir l) (hname : IsStep name) :
    ensure fs (some dir) name source = (.ok p, fs') ↔
      p = dir.join name ∧
        (holds fs p source ∧ fs' = fs ∨
          ¬ holds fs p source ∧ Writable fs dir l name ∧ fs' = installed fs l name source) := by
  simp only [ensure, hdir.makeDirectories?]
  split
  next hholds =>
    constructor
    · intro h
      cases h
      exact ⟨rfl, .inl ⟨hholds, rfl⟩⟩
    · rintro ⟨rfl, ⟨-, rfl⟩ | ⟨hnot, -⟩⟩
      · rfl
      · exact absurd hholds hnot
  next hnot =>
    rw [writeLocked_eq_ok_iff hdir hname hnot]
    refine and_congr_right ?_
    rintro rfl
    simp [hnot]

/-! ### What it leaves -/

theorem lookup?_installed (fs : FileSystem) (l : Location) (source : String)
    (hm : m ≠ l ++ [name]) :
    (installed fs l name source).lookup? m =
      if m = l ++ [name ++ ".lock"] ∧ fs.lookup? m = none then some (.file .empty false)
      else fs.lookup? m := by
  rw [installed, FileSystem.lookup?_written_of_ne _ (by simp) _ hm,
    FileSystem.lookup?_touched _ (by simp)]
  refine if_congr ?_ rfl rfl
  refine and_congr_right ?_
  rintro rfl
  rfl

theorem contents?_installed (fs : FileSystem) (l : Location) (name source : String) :
    (installed fs l name source).contents? (l ++ [name]) = some source.toUTF8 :=
  FileSystem.contents?_written _ (by simp) _

theorem grows_installed (h : Writable fs dir l name) (source : String) :
    fs.Grows (installed fs l name source) := by
  have hlocked := FileSystem.Grows.touched (by simp) h.lock_admits.not_isDirectoryAt
  apply hlocked.trans
  apply FileSystem.Grows.set_file (by simp)
  rw [FileSystem.isDirectoryAt_iff, lookup?_script_touched, ← FileSystem.isDirectoryAt_iff]
  exact h.script_admits.not_isDirectoryAt

theorem isScript_singleton : IsScript l [c] m ↔ m = l ++ [c.name] := by
  simp [IsScript]

/-- **The step of a run.** -/
theorem Stored.of_ensure (hdir : fs.LeadsTo dir l) (hname : IsStep c.name)
    (hfree : CollisionFree fs [c])
    (h : ensure fs (some dir) c.name c.source = (.ok p, fs')) : Stored fs l [c] fs' := by
  obtain ⟨rfl, ⟨hholds, rfl⟩ | ⟨-, hwritable, rfl⟩⟩ := (ensure_eq_ok_iff hdir hname).mp h
  · -- Nothing is written, and equal digests tell that the file has the source
    rw [hfree.holds_iff (by simp), hdir.read?_join hname, Option.ite_none_right_eq_some] at hholds
    exact {
      script := fun name source hlast => by
        obtain ⟨rfl, rfl⟩ := lastSource?_singleton_eq_some_iff.mp hlast
        exact hholds.2
      kept := fun _ _ _ hm => hm
      made := fun _ _ hm => .inl hm
      grows := .refl _ }
  · exact {
      script := fun name source hlast => by
        obtain ⟨rfl, rfl⟩ := lastSource?_singleton_eq_some_iff.mp hlast
        exact contents?_installed fs l _ _
      kept := fun m e hnot hm => by
        rw [isScript_singleton] at hnot
        rw [lookup?_installed fs l _ hnot, if_neg (by simp [hm]), hm]
      made := fun m hnot hm => by
        rw [isScript_singleton] at hnot
        rw [lookup?_installed fs l _ hnot]
        by_cases hlock : m = l ++ [c.name ++ ".lock"]
        · rw [if_pos ⟨hlock, hm⟩]
          exact .inr ⟨⟨c, by simp, hlock⟩, rfl⟩
        · rw [if_neg fun h => hlock h.1]
          exact .inl hm
      grows := grows_installed hwritable _ }

/-! ## All installations -/

/-- **What any run leaves.** -/
theorem Stored.of_installAll? (hdir : fs.LeadsTo dir l) (hnames : ∀ c ∈ calls, IsStep c.name)
    (hfree : CollisionFree fs calls) (h : installAll? dir fs calls = some fs') :
    Stored fs l calls fs' := by
  induction calls generalizing fs with
  | nil =>
    cases h
    exact .nil _ l
  | cons c calls ih =>
    -- After one step the directory is still there and no text is new, so the rest is a run again
    obtain ⟨hname, hnames⟩ := List.forall_mem_cons.mp hnames
    obtain ⟨p, fs₁, hensure, hrest⟩ := installAll?_cons_eq_some_iff.mp h
    have hstep : Stored fs l [c] fs₁ :=
      .of_ensure hdir hname (hfree.of_subset (by simp)) hensure
    have hrun := ih (hdir.grows hstep.grows) hnames (CollisionFree.of_stored hfree hstep) hrest
    exact hstep.append hrun

/-- A run leaves no directory where a file could be written. -/
theorem Stored.admits (h : Stored fs l calls fs') (hadmits : fs.Admits l name) :
    fs'.Admits l name := by
  obtain hdirectory | hfile | hnone := fs'.lookup?_cases (l ++ [name])
  · rw [h.isDirectoryAt_iff] at hdirectory
    exact absurd hdirectory hadmits.not_isDirectoryAt
  · exact .inl hfile
  · obtain hfile | ⟨-, hvalid⟩ := hadmits
    · obtain ⟨b, hb⟩ := Option.isSome_iff_exists.mp hfile
      obtain ⟨executable, hlookup⟩ := FileSystem.contents?_eq_some_iff.mp hb
      have hsome := h.grows.isSome _ (by rw [hlookup]; rfl)
      simp [hnone] at hsome
    · exact .inr ⟨hnone, hvalid⟩

theorem Writable.of_stored (h : Writable fs dir l name) (hstored : Stored fs l calls fs') :
    Writable fs' dir l name where
  script_fits := (hstored.grows.fits _).trans h.script_fits
  lock_fits := (hstored.grows.fits _).trans h.lock_fits
  script_admits := hstored.admits h.script_admits
  lock_admits := hstored.admits h.lock_admits

theorem exists_ensure (hdir : fs.LeadsTo dir l) (hname : IsStep name)
    (hwritable : Writable fs dir l name) (source : String) :
    ∃ fs', ensure fs (some dir) name source = (.ok (dir.join name), fs') := by
  by_cases hholds : holds fs (dir.join name) source
  · exact ⟨fs, (ensure_eq_ok_iff hdir hname).mpr ⟨rfl, .inl ⟨hholds, rfl⟩⟩⟩
  · exact ⟨_, (ensure_eq_ok_iff hdir hname).mpr ⟨rfl, .inr ⟨hholds, hwritable, rfl⟩⟩⟩

/-- **A run goes through** where all its scripts and their locks can be written at first. -/
theorem exists_installAll? (hdir : fs.LeadsTo dir l) (hnames : ∀ c ∈ calls, IsStep c.name)
    (hfree : CollisionFree fs calls) (hwritable : ∀ c ∈ calls, Writable fs dir l c.name) :
    ∃ fs', installAll? dir fs calls = some fs' := by
  induction calls generalizing fs with
  | nil => exact ⟨fs, rfl⟩
  | cons c calls ih =>
    obtain ⟨hname, hnames⟩ := List.forall_mem_cons.mp hnames
    obtain ⟨hfirst, hwritable⟩ := List.forall_mem_cons.mp hwritable
    obtain ⟨fs₁, hensure⟩ := exists_ensure hdir hname hfirst c.source
    have hstep : Stored fs l [c] fs₁ :=
      .of_ensure hdir hname (hfree.of_subset (by simp)) hensure
    obtain ⟨fs', hrest⟩ := ih (hdir.grows hstep.grows) hnames
      (CollisionFree.of_stored hfree hstep) fun d hd => (hwritable d hd).of_stored hstep
    exact ⟨fs', installAll?_cons_eq_some_iff.mpr ⟨_, fs₁, hensure, hrest⟩⟩

/-- What becomes of one installation in the directory at a location: the returned path leads to the
script, and no other file has changed, as far as there was one. If the script was there nothing has
changed at all, and nothing will if it is installed again. -/
structure Installed (fs : FileSystem) (dir : Path) (l : Location) (c : Installation)
    (fs' : FileSystem) : Prop where
  returned : ensure fs (some dir) c.name c.source = (.ok (dir.join c.name), fs')
  script : fs'.read? (dir.join c.name) = some c.source.toUTF8
  others : ∀ q, fs.isFile q → ¬ fs.SameFile q (dir.join c.name) → fs'.read? q = fs.read? q
  stored : Stored fs l [c] fs'
  unchanged : fs.read? (dir.join c.name) = some c.source.toUTF8 → fs' = fs
  again : ensure fs' (some dir) c.name c.source = (.ok (dir.join c.name), fs')

theorem holds_of_read? (h : fs.read? p = some source.toUTF8) : holds fs p source := by
  simp [holds, h]

/-- A file that is not the script is read as before. -/
theorem Stored.read?_eq (h : Stored fs l [c] fs') (hdir : fs.LeadsTo dir l)
    (hname : IsStep c.name) (hfits : fs.fits (dir.join c.name)) {q : Path} (hq : fs.isFile q)
    (hother : ¬ fs.SameFile q (dir.join c.name)) : fs'.read? q = fs.read? q := by
  obtain ⟨b, hb⟩ := Option.isSome_iff_exists.mp hq
  obtain ⟨m, hresolve, hm⟩ := Option.bind_eq_some_iff.mp hb
  obtain ⟨executable, hlookup⟩ := FileSystem.contents?_eq_some_iff.mp hm
  have hnot : ¬ IsScript l [c] m := by
    rw [isScript_singleton]
    rintro rfl
    refine hother ⟨_, hresolve, ?_⟩
    rw [hdir.resolve?_join hname, hlookup, if_pos ⟨hfits, rfl⟩]
  have hkept : fs'.contents? m = some b :=
    FileSystem.contents?_eq_some_iff.mpr ⟨executable, h.kept m _ hnot hlookup⟩
  rw [FileSystem.read?, h.grows.resolve? hresolve, FileSystem.read?, hresolve, Option.bind_some,
    Option.bind_some, hkept, hm]

theorem Installed.of_ensure (hdir : fs.LeadsTo dir l) (hname : IsStep c.name)
    (hfree : CollisionFree fs [c])
    (h : ensure fs (some dir) c.name c.source = (.ok p, fs')) : Installed fs dir l c fs' := by
  have hstored := Stored.of_ensure hdir hname hfree h
  obtain ⟨rfl, hcases⟩ := (ensure_eq_ok_iff hdir hname).mp h
  have hfits : fs.fits (dir.join c.name) := by
    obtain ⟨hholds, -⟩ | ⟨-, hwritable, -⟩ := hcases
    · rw [hfree.holds_iff (by simp), hdir.read?_join hname, Option.ite_none_right_eq_some] at hholds
      exact hholds.1
    · exact hwritable.script_fits
  have hlast : lastSource? [c] c.name = some c.source :=
    lastSource?_singleton_eq_some_iff.mpr ⟨rfl, rfl⟩
  have hread : fs'.read? (dir.join c.name) = some c.source.toUTF8 := by
    rw [(hdir.grows hstored.grows).read?_join hname, hstored.grows.fits, if_pos hfits]
    exact hstored.script _ _ hlast
  exact {
    returned := h
    script := hread
    others := fun q => hstored.read?_eq hdir hname hfits
    stored := hstored
    unchanged := fun hsame => by
      obtain ⟨-, heq⟩ | ⟨hnot, -⟩ := hcases
      · exact heq
      · exact absurd (holds_of_read? hsame) hnot
    again := (ensure_eq_ok_iff (hdir.grows hstored.grows) hname).mpr
      ⟨rfl, .inl ⟨holds_of_read? hread, rfl⟩⟩ }

/-- **A directory is a store of scripts.** Whatever it holds at first, and however scripts are named
after the locks of others: a run that goes through leaves each script with its last source, and
changes no other file but for empty lock files that it makes. Each installation on the way does the
same for itself, and does nothing if its script was the last one of that name. -/
theorem installAll_stores (hdir : fs.isDirectory dir) (hnames : ∀ c ∈ calls, IsStep c.name)
    (hfree : CollisionFree fs calls) (h : installAll? dir fs calls = some fs') :
    ∃ l, fs.resolve? dir = some l ∧ Stored fs l calls fs' ∧
      ∀ before c after, calls = before ++ c :: after →
        ∃ fs₁ fs₂, installAll? dir fs before = some fs₁ ∧ Installed fs₁ dir l c fs₂ ∧
          installAll? dir fs₂ after = some fs' ∧
          (lastSource? before c.name = some c.source → fs₂ = fs₁) := by
  obtain ⟨l, hl⟩ := FileSystem.exists_leadsTo hdir
  refine ⟨l, hl.resolve, .of_installAll? hl hnames hfree h, ?_⟩
  rintro before c after rfl
  rw [installAll?_append] at h
  obtain ⟨fs₁, hbefore, h⟩ := Option.bind_eq_some_iff.mp h
  obtain ⟨p, fs₂, hensure, hafter⟩ := installAll?_cons_eq_some_iff.mp h
  obtain ⟨hbeforeNames, hnames⟩ := List.forall_mem_append.mp hnames
  have hname : IsStep c.name := hnames c List.mem_cons_self
  -- What was installed before says what the files hold when this installation begins
  have hstored : Stored fs l before fs₁ :=
    .of_installAll? hl hbeforeNames (hfree.of_subset (by simp)) hbefore
  have hl₁ : fs₁.LeadsTo dir l := hl.grows hstored.grows
  have hfree₁ : CollisionFree fs₁ [c] := (hfree.of_stored hstored).of_subset (by simp)
  have hinstalled : Installed fs₁ dir l c fs₂ := .of_ensure hl₁ hname hfree₁ hensure
  refine ⟨fs₁, fs₂, hbefore, hinstalled, hafter, fun hlast => hinstalled.unchanged ?_⟩
  have hread := hinstalled.script
  rw [(hl₁.grows hinstalled.stored.grows).read?_join hname, Option.ite_none_right_eq_some,
    hinstalled.stored.grows.fits] at hread
  rw [hl₁.read?_join hname, if_pos hread.1]
  exact hstored.script _ _ hlast

/-- A directory with a stale script in it. -/
def staleFiles : FileSystem :=
  ⟨[(["c"], .directory), (["c", "a"], .file "y".toUTF8 false)], [], some 4096⟩

/-- Installs a script anew, another one in place of its lock, and the first one as it was, twice. -/
def lockedCalls : List Installation := [⟨"a", "x"⟩, ⟨"a.lock", "y"⟩, ⟨"a", "y"⟩, ⟨"a", "y"⟩]

theorem contents?_staleFiles {b : ByteArray} (h : staleFiles.contents? m = some b) :
    b = "y".toUTF8 := by
  simp only [FileSystem.contents?, FileSystem.lookup?, staleFiles, Association.lookup_cons] at h
  by_cases hroot : m = []
  · simp [hroot] at h
  · by_cases hdir : m = ["c"]
    · simp [hdir] at h
    · by_cases hfile : m = ["c", "a"]
      · simp [hfile] at h
        exact h.symm
      · simp [hroot, hdir, hfile] at h

theorem nodup_digests : ([.empty, "x".toUTF8, "y".toUTF8].map digest).Nodup := by
  decide +kernel

theorem mem_of_mem_texts {b : ByteArray} (h : b ∈ texts staleFiles lockedCalls) :
    b ∈ [.empty, "x".toUTF8, "y".toUTF8] := by
  obtain ⟨m, hm⟩ | rfl | ⟨c, hc, rfl⟩ := h
  · rw [contents?_staleFiles hm]
    simp
  · simp
  · simp only [lockedCalls, List.mem_cons, List.not_mem_nil, or_false] at hc
    obtain rfl | rfl | rfl | rfl := hc <;> simp

theorem collisionFree_staleFiles : CollisionFree staleFiles lockedCalls :=
  fun _ hb _ hb' =>
    List.inj_on_of_nodup_map nodup_digests (mem_of_mem_texts hb) (mem_of_mem_texts hb')

theorem leadsTo_staleFiles : staleFiles.LeadsTo ⟨"/c"⟩ ["c"] :=
  ⟨by decide +kernel, by decide +kernel⟩

theorem forall_lockedCalls {P : String → Prop} (ha : P "a") (hlock : P "a.lock") :
    ∀ c ∈ lockedCalls, P c.name := by
  simp [lockedCalls, ha, hlock]

theorem installAll_stores_lockedCalls :
    ∃ fs', installAll? ⟨"/c"⟩ staleFiles lockedCalls = some fs' ∧
      fs'.contents? ["c", "a"] = some "y".toUTF8 ∧
      fs'.contents? ["c", "a.lock"] = some "y".toUTF8 := by
  have hnames : ∀ c ∈ lockedCalls, IsStep c.name :=
    forall_lockedCalls ⟨by decide, by decide, by decide⟩ ⟨by decide, by decide, by decide⟩
  have hwritable : ∀ c ∈ lockedCalls, Writable staleFiles ⟨"/c"⟩ ["c"] c.name :=
    forall_lockedCalls
      ⟨by decide +kernel, by decide +kernel, .inl (by decide +kernel), .inr (by decide +kernel)⟩
      ⟨by decide +kernel, by decide +kernel, .inr (by decide +kernel), .inr (by decide +kernel)⟩
  obtain ⟨fs', hrun⟩ :=
    exists_installAll? leadsTo_staleFiles hnames collisionFree_staleFiles hwritable
  obtain ⟨l, hl, hstored, -⟩ :=
    installAll_stores (by decide +kernel) hnames collisionFree_staleFiles hrun
  rw [leadsTo_staleFiles.resolve] at hl
  cases hl
  refine ⟨fs', hrun, hstored.script "a" "y" ?_, hstored.script "a.lock" "y" ?_⟩
  · decide
  · decide

end MapChain.Script
