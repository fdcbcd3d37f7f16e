import MapChain.Proofs.Files.Walking

/-!
# Files in a directory

A name that is joined to the path of a directory leads to the entry of that name in it, so what
opening and writing such a file does can be said by its location alone. Putting files where no
directory is only adds to where paths lead: a path that led somewhere leads there still.

## Layers

- **Growing**: `Grows`, which every path that leads somewhere survives.
- **Entries**: `LeadsTo`, and where a joined name leads.
- **Opening and writing**: `touch?_join` and `write?_join`, with what they leave behind.
-/

namespace MapChain.FileSystem

variable {fs fs' fs'' : FileSystem} {l m : Location} {p dir : Path} {name : String}

/-! ## What is at a location -/

theorem contents?_eq_some_iff {contents : ByteArray} :
    fs.contents? l = some contents ↔ ∃ executable, fs.lookup? l = some (.file contents executable) := by
  unfold contents?
  split
  next contents' executable h => simp [h]
  next h =>
    simp only [reduceCtorEq, false_iff, not_exists]
    exact h contents

theorem isDirectoryAt_iff : fs.isDirectoryAt l ↔ fs.lookup? l = some .directory := by
  unfold isDirectoryAt
  split
  next h => simp [h]
  next h => simpa using h

/-- What is at a location is a directory, or a file, or nothing is there. -/
theorem lookup?_cases (fs : FileSystem) (l : Location) :
    fs.isDirectoryAt l ∨ (fs.contents? l).isSome ∨ fs.lookup? l = none := by
  cases h : fs.lookup? l with
  | none => simp
  | some e => cases e <;> simp [isDirectoryAt, contents?, h]

/-! ## Growing -/

/-- What a file system has besides files stays: directories, where relative paths lead from and how
long paths may be; and where something is, something stays. -/
structure Grows (fs fs' : FileSystem) : Prop where
  current : fs'.current = fs.current
  pathLimit : fs'.pathLimit = fs.pathLimit
  isSome : ∀ l, (fs.lookup? l).isSome → (fs'.lookup? l).isSome
  directory : ∀ l, fs.isDirectoryAt l → fs'.isDirectoryAt l

theorem Grows.refl (fs : FileSystem) : fs.Grows fs :=
  ⟨rfl, rfl, fun _ => id, fun _ => id⟩

theorem Grows.trans (h : fs.Grows fs') (h' : fs'.Grows fs'') : fs.Grows fs'' where
  current := h'.current.trans h.current
  pathLimit := h'.pathLimit.trans h.pathLimit
  isSome l hl := h'.isSome l (h.isSome l hl)
  directory l hl := h'.directory l (h.directory l hl)

theorem Grows.set_file (hl : l ≠ []) (h : ¬ fs.isDirectoryAt l) (contents : ByteArray)
    (executable : Bool) : fs.Grows (fs.set l (.file contents executable)) where
  current := rfl
  pathLimit := rfl
  isSome m hm := by
    rw [lookup?_set fs hl]
    split
    · rfl
    · exact hm
  directory m hm := by
    have hne : m ≠ l := fun heq => h (heq ▸ hm)
    rw [isDirectoryAt_iff, lookup?_set fs hl, if_neg hne]
    exact isDirectoryAt_iff.mp hm

theorem Grows.step? {next : Location} {piece : String} (h : fs.Grows fs')
    (hstep : fs.step? l piece = some next) : fs'.step? l piece = some next := by
  unfold FileSystem.step? at hstep ⊢
  rw [Option.ite_none_right_eq_some] at hstep
  obtain ⟨hdirectory, hstep⟩ := hstep
  rw [if_pos (h.directory l hdirectory)]
  split at hstep
  next hvoid => rw [if_pos hvoid, hstep]
  next hvoid =>
    rw [if_neg hvoid]
    split at hstep
    next hparent => rw [if_pos hparent, hstep]
    next hparent =>
      rw [Option.ite_none_right_eq_some] at hstep
      rw [if_neg hparent, if_pos (h.isSome _ hstep.1), hstep.2]

theorem Grows.walk? {ps : List String} (h : fs.Grows fs') (hwalk : fs.walk? l ps = some m) :
    fs'.walk? l ps = some m := by
  induction ps generalizing l with
  | nil => exact hwalk
  | cons piece ps ih =>
    -- The first step leads to the same place, and the rest of the walk goes on from there
    rw [walk?_cons] at hwalk ⊢
    obtain ⟨next, hstep, hwalk⟩ := Option.bind_eq_some_iff.mp hwalk
    rw [h.step? hstep, Option.bind_some, ih hwalk]

theorem Grows.fits (h : fs.Grows fs') (p : Path) : fs'.fits p = fs.fits p := by
  rw [FileSystem.fits, FileSystem.fits, h.pathLimit]

/-- **Where a path leads, it leads still.** -/
theorem Grows.resolve? (h : fs.Grows fs') (hp : fs.resolve? p = some l) :
    fs'.resolve? p = some l := by
  unfold FileSystem.resolve? destination? at hp ⊢
  rw [Option.ite_none_right_eq_some, Option.ite_none_left_eq_some] at hp
  obtain ⟨hfits, hne, hwalk⟩ := hp
  rw [h.fits, if_pos hfits, if_neg hne]
  apply h.walk?
  rwa [origin, h.current]

/-! ## Entries -/

/-- A path leads to a directory at a location. -/
structure LeadsTo (fs : FileSystem) (dir : Path) (l : Location) : Prop where
  resolve : fs.resolve? dir = some l
  directory : fs.isDirectoryAt l

theorem exists_leadsTo (h : fs.isDirectory dir) : ∃ l, fs.LeadsTo dir l := by
  unfold isDirectory at h
  split at h
  next l hl => exact ⟨l, hl, h⟩
  next => cases h

theorem LeadsTo.grows (h : fs.LeadsTo dir l) (hgrows : fs.Grows fs') : fs'.LeadsTo dir l :=
  ⟨hgrows.resolve? h.resolve, hgrows.directory l h.directory⟩

theorem LeadsTo.text_ne (h : fs.LeadsTo dir l) : dir.text ≠ "" := by
  have hdir := destination?_of_resolve? h.resolve
  rw [destination?, Option.ite_none_left_eq_some] at hdir
  exact hdir.1

/-- Making a directory that is there changes nothing. -/
theorem LeadsTo.makeDirectories? (h : fs.LeadsTo dir l) : fs.makeDirectories? dir = some fs := by
  have hmake {k : Location} {ps : List String} (hk : fs.walk? k ps = some l) :
      fs.makeFrom? k ps = some fs := by
    induction ps generalizing k with
    | nil =>
      cases hk
      rw [makeFrom?, if_pos h.directory]
    | cons piece ps ih =>
      rw [walk?_cons] at hk
      obtain ⟨next, hstep, hk⟩ := Option.bind_eq_some_iff.mp hk
      rw [makeFrom?, hstep]
      exact ih hk
  have hdir := h.resolve
  rw [resolve?, Option.ite_none_right_eq_some] at hdir
  rw [FileSystem.makeDirectories?, if_pos hdir.1]
  apply hmake
  rw [← destination?_eq_walk? h.text_ne]
  exact hdir.2

theorem IsStep.isAbsolute (h : IsStep name) : (Path.mk name).isAbsolute = false := by
  have hne : name.toList.head? ≠ some Path.separator :=
    fun hhead => h.notMem (List.mem_of_mem_head? hhead)
  simpa [Path.isAbsolute] using hne

theorem IsStep.route (h : IsStep name) : FileSystem.route ⟨name⟩ = [name] := by
  rw [FileSystem.route, Path.pieces_of_notMem h.notMem]
  simp

/-- The last piece of a joined name is the name, and what is before it leads to the directory. -/
theorem LeadsTo.exists_route_join (h : fs.LeadsTo dir l) (hname : IsStep name) :
    ∃ front, route (dir.join name) = front ++ [name] ∧
      fs.walk? (fs.origin (dir.join name)) front = some l := by
  have hdir := destination?_of_resolve? h.resolve
  rw [destination?_eq_walk? h.text_ne] at hdir
  obtain ⟨first, hfirst, hjoin⟩ | hjoin := join_cases h.text_ne hname.isAbsolute
  · -- The path of the directory ends in a separator, and so in an empty piece
    have hchars : (dir.join name).text.toList = first ++ Path.separator :: name.toList := by
      simp [hjoin, hfirst]
    have hroute := route_append_separator hchars
    rw [String.ofList_toList, hname.route] at hroute
    refine ⟨_, hroute, ?_⟩
    have hempty : route dir = route ⟨String.ofList first⟩ ++ [""] := route_append_separator hfirst
    rw [hempty, walk?_append] at hdir
    obtain ⟨k, hk, hlast⟩ := Option.bind_eq_some_iff.mp hdir
    have hkl : k = l := by
      rw [walk?_cons, step?_void (.inl rfl)] at hlast
      split at hlast
      · exact Option.some.inj hlast
      · cases hlast
    rw [(origin_of_text fs h.text_ne (congrArg Path.text hjoin)).2, hk, hkl]
  · have hchars : (dir.join name).text.toList =
        dir.text.toList ++ Path.separator :: name.toList := by
      simp [hjoin]
    have hroute := route_append_separator hchars
    rw [String.ofList_toList, String.ofList_toList, hname.route] at hroute
    refine ⟨_, hroute, ?_⟩
    rw [(origin_of_text fs h.text_ne (congrArg Path.text hjoin)).2]
    exact hdir

/-- **A joined name leads to the entry of that name.** -/
theorem LeadsTo.resolve?_join (h : fs.LeadsTo dir l) (hname : IsStep name) :
    fs.resolve? (dir.join name) =
      if fs.fits (dir.join name) ∧ (fs.lookup? (l ++ [name])).isSome then some (l ++ [name])
      else none := by
  have hdestination : fs.destination? (dir.join name) =
      if (fs.lookup? (l ++ [name])).isSome then some (l ++ [name]) else none := by
    rw [destination?_join h.text_ne hname.isAbsolute, destination?_of_resolve? h.resolve,
      hname.route, Option.bind_some, walk?_cons, step?_name hname]
    simp only [h.directory, true_and]
    split <;> rfl
  rw [FileSystem.resolve?, hdestination, ite_and]

theorem LeadsTo.read?_join (h : fs.LeadsTo dir l) (hname : IsStep name) :
    fs.read? (dir.join name) =
      if fs.fits (dir.join name) then fs.contents? (l ++ [name]) else none := by
  rw [read?, h.resolve?_join hname]
  by_cases hfits : fs.fits (dir.join name)
  · cases hlookup : fs.lookup? (l ++ [name]) <;> simp [hfits, contents?, hlookup]
  · simp [hfits]

theorem LeadsTo.place?_join (h : fs.LeadsTo dir l) (hname : IsStep name) :
    fs.place? (dir.join name) =
      if fs.fits (dir.join name) ∧ isName name then some (l ++ [name]) else none := by
  obtain ⟨front, hroute, hfront⟩ := h.exists_route_join hname
  rw [place?, hroute, List.dropLast_concat, hfront, ite_and]
  simp [h.directory]

/-! ## Opening and writing -/

/-- A file can be written in a directory under a name: there is one, or nothing is there and a file
may have the name. -/
def Admits (fs : FileSystem) (l : Location) (name : String) : Prop :=
  (fs.contents? (l ++ [name])).isSome ∨ fs.lookup? (l ++ [name]) = none ∧ isName name

theorem Admits.not_isDirectoryAt (h : fs.Admits l name) : ¬ fs.isDirectoryAt (l ++ [name]) := by
  intro hdirectory
  rw [isDirectoryAt_iff] at hdirectory
  obtain hfile | ⟨hnone, -⟩ := h
  · simp [contents?, hdirectory] at hfile
  · simp [hdirectory] at hnone

/-- What opening a file for writing leaves: the file is there, and empty if it was missing. -/
def touched (fs : FileSystem) (l : Location) : FileSystem :=
  if (fs.lookup? l).isSome then fs else fs.set l (.file .empty false)

/-- What writing a file leaves: the file has the contents, and may be executed if it could be
before. -/
def written (fs : FileSystem) (l : Location) (contents : ByteArray) : FileSystem :=
  fs.set l (.file contents (match fs.lookup? l with
    | some (.file _ executable) => executable
    | _ => false))

theorem lookup?_touched (fs : FileSystem) (hl : l ≠ []) (m : Location) :
    (fs.touched l).lookup? m =
      if m = l ∧ fs.lookup? l = none then some (.file .empty false) else fs.lookup? m := by
  unfold touched
  split
  next h => simp [Option.isSome_iff_ne_none.mp h]
  next h =>
    have hnone : fs.lookup? l = none := by simpa using h
    simp only [lookup?_set fs hl, hnone, and_true]

theorem lookup?_written_of_ne (fs : FileSystem) (hl : l ≠ []) (contents : ByteArray)
    (hm : m ≠ l) : (fs.written l contents).lookup? m = fs.lookup? m := by
  rw [written, lookup?_set fs hl, if_neg hm]

theorem contents?_written (fs : FileSystem) (hl : l ≠ []) (contents : ByteArray) :
    (fs.written l contents).contents? l = some contents := by
  rw [written, contents?_eq_some_iff, lookup?_set fs hl, if_pos rfl]
  exact ⟨_, rfl⟩

theorem Grows.touched (hl : l ≠ []) (h : ¬ fs.isDirectoryAt l) : fs.Grows (fs.touched l) := by
  unfold FileSystem.touched
  split
  · exact .refl fs
  · exact .set_file hl h _ _

theorem LeadsTo.touch?_join (h : fs.LeadsTo dir l) (hname : IsStep name) :
    fs.touch? (dir.join name) = some fs' ↔
      fs.fits (dir.join name) ∧ fs.Admits l name ∧ fs' = fs.touched (l ++ [name]) := by
  have heq (x : FileSystem) : x = fs' ↔ fs' = x := eq_comm
  rw [touch?, h.resolve?_join hname, h.place?_join hname, Admits, touched]
  by_cases hfits : fs.fits (dir.join name)
  · -- A file is there and stays as it is, or is made, or a directory is in the way
    match hlookup : fs.lookup? (l ++ [name]) with
    | none => by_cases hvalid : isName name <;> simp [contents?, hlookup, hfits, hvalid, heq]
    | some .directory => simp [contents?, hlookup, hfits]
    | some (.file contents executable) => simp [contents?, hlookup, hfits, heq]
  · simp [hfits]

theorem LeadsTo.write?_join (h : fs.LeadsTo dir l) (hname : IsStep name) (contents : ByteArray) :
    fs.write? (dir.join name) contents = some fs' ↔
      fs.fits (dir.join name) ∧ fs.Admits l name ∧ fs' = fs.written (l ++ [name]) contents := by
  have heq (x : FileSystem) : x = fs' ↔ fs' = x := eq_comm
  rw [write?, h.resolve?_join hname, h.place?_join hname, Admits, written]
  by_cases hfits : fs.fits (dir.join name)
  · match hlookup : fs.lookup? (l ++ [name]) with
    | none => by_cases hvalid : isName name <;> simp [contents?, hlookup, hfits, hvalid, heq]
    | some .directory => simp [contents?, hlookup, hfits]
    | some (.file contents executable) => simp [contents?, hlookup, hfits, heq]
  · simp [hfits]

end MapChain.FileSystem
