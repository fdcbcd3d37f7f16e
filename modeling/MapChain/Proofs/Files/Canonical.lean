import Mathlib.Data.List.Basic
import MapChain.Files.FileSystem

/-!
# Canonical paths

However a path is spelled, its canonical path tells where it leads. This takes names that a
directory can list, which are not empty and hold no separator. Looking up a path finds no others, so
only the names on the way to the current directory have to be asked for.
-/

namespace MapChain

namespace Path

theorem separator_notMem_of_mem_pieces {text piece : List Char} (h : piece ∈ pieces text) :
    separator ∉ piece := by
  induction text generalizing piece with
  | nil =>
    rw [pieces, List.mem_singleton] at h
    rw [h]
    exact List.not_mem_nil
  | cons c text ih =>
    rw [pieces] at h
    split at h
    · rcases List.mem_cons.mp h with rfl | h
      · exact List.not_mem_nil
      · exact ih h
    next hc =>
      split at h
      · obtain rfl := List.mem_singleton.mp h
        simpa using Ne.symm hc
      next first others hpieces =>
        rcases List.mem_cons.mp h with rfl | h
        · have hfirst : separator ∉ first := ih (by rw [hpieces]; exact List.mem_cons_self)
          rw [List.mem_cons, not_or]
          exact ⟨Ne.symm hc, hfirst⟩
        · exact ih (by rw [hpieces]; exact List.mem_cons_of_mem _ h)

end Path

namespace FileSystem

/-! ## Files -/

/-- Two paths lead to the same location. -/
def SameFile (fs : FileSystem) (p q : Path) : Prop :=
  ∃ l, fs.resolve? p = some l ∧ fs.resolve? q = some l

instance (fs : FileSystem) (p q : Path) : Decidable (fs.SameFile p q) :=
  decidable_of_iff ((fs.resolve? p).isSome ∧ fs.resolve? q = fs.resolve? p) <| by
    constructor
    · rintro ⟨hp, hq⟩
      obtain ⟨l, hl⟩ := Option.isSome_iff_exists.mp hp
      exact ⟨l, hl, hq.trans hl⟩
    · rintro ⟨l, hp, hq⟩
      rw [hp, hq]
      exact ⟨rfl, rfl⟩

/-- Files have canonical paths, and two files have one canonical path only if they are the same. -/
def CanonicalNames (fs : FileSystem) : Prop :=
  ∀ p q, fs.isFile p → fs.isFile q →
    (fs.canonical? p).isSome ∧ (fs.canonical? p = fs.canonical? q ↔ fs.SameFile p q)

theorem exists_resolve?_of_isFile {fs : FileSystem} {p : Path} (h : fs.isFile p) :
    ∃ l, fs.resolve? p = some l := by
  obtain ⟨bytes, hbytes⟩ := Option.isSome_iff_exists.mp h
  obtain ⟨l, hl, -⟩ := Option.bind_eq_some_iff.mp hbytes
  exact ⟨l, hl⟩

theorem destination?_of_resolve? {fs : FileSystem} {p : Path} {l : Location}
    (h : fs.resolve? p = some l) : fs.destination? p = some l := by
  rw [resolve?, Option.ite_none_right_eq_some] at h
  exact h.2

theorem canonical?_of_resolve? {fs : FileSystem} {p : Path} {l : Location}
    (h : fs.resolve? p = some l) : fs.canonical? p = some (pathOf l) := by
  rw [canonical?, destination?_of_resolve? h]
  rfl

/-! ## Names -/

/-- The names on the way to a location can all be listed by a directory. -/
def IsListed (l : Location) : Prop := ∀ name ∈ l, name ≠ "" ∧ Path.separator ∉ name.toList

theorem splitOn_pathOf {l : Location} (h : IsListed l) :
    ((pathOf l).text.toList.tail.splitOn Path.separator).filter (· ≠ []) =
      l.map String.toList := by
  have htail : (pathOf l).text.toList.tail =
      [Path.separator].intercalate (l.map String.toList) := by
    simp [pathOf]
  rw [htail]
  -- The path of the root is a separator, with an empty piece behind it
  by_cases hl : l = []
  · subst hl
    rfl
  · rw [List.splitOn_intercalate Path.separator _ (by simpa using hl)]
    · rw [List.filter_eq_self]
      intro chars hchars
      obtain ⟨name, hname, rfl⟩ := List.mem_map.mp hchars
      simpa using (h name hname).1
    · intro chars hchars
      obtain ⟨name, hname, rfl⟩ := List.mem_map.mp hchars
      exact (h name hname).2

/-- Different locations have different paths. -/
theorem pathOf_injective {l m : Location} (hl : IsListed l) (hm : IsListed m)
    (h : pathOf l = pathOf m) : l = m := by
  have hmap : l.map String.toList = m.map String.toList := by
    rw [← splitOn_pathOf hl, ← splitOn_pathOf hm, h]
  exact List.map_injective_iff.mpr (fun _ _ => String.toList_injective) hmap

theorem isListed_of_step? {fs : FileSystem} {l next : Location} {piece : String} (hl : IsListed l)
    (hpiece : Path.separator ∉ piece.toList) (h : fs.step? l piece = some next) :
    IsListed next := by
  rw [step?] at h
  split at h
  next =>
    split at h
    next =>
      cases h
      exact hl
    next hempty =>
      split at h
      next =>
        cases h
        exact fun name hname => hl name (List.dropLast_subset l hname)
      next =>
        rw [Option.ite_none_right_eq_some] at h
        cases h.2
        intro name hname
        rcases List.mem_append.mp hname with hname | hname
        · exact hl name hname
        · obtain rfl := List.mem_singleton.mp hname
          exact ⟨fun h => hempty (.inl h), hpiece⟩
  next => cases h

theorem isListed_of_walk? {fs : FileSystem} {pieces : List String} {l m : Location}
    (hl : IsListed l) (hpieces : ∀ piece ∈ pieces, Path.separator ∉ piece.toList)
    (h : fs.walk? l pieces = some m) : IsListed m := by
  induction pieces generalizing l with
  | nil =>
    cases h
    exact hl
  | cons piece pieces ih =>
    rw [walk?] at h
    split at h
    next next hstep =>
      have hnext := isListed_of_step? hl (hpieces piece List.mem_cons_self) hstep
      exact ih hnext (fun piece hmem => hpieces piece (List.mem_cons_of_mem _ hmem)) h
    next => cases h

theorem separator_notMem_of_mem_route {p : Path} {piece : String} (h : piece ∈ route p) :
    Path.separator ∉ piece.toList := by
  obtain ⟨chars, hchars, rfl⟩ := List.mem_map.mp h
  rw [String.toList_ofList]
  exact Path.separator_notMem_of_mem_pieces hchars

theorem isListed_of_resolve? {fs : FileSystem} (hcurrent : IsListed fs.current) {p : Path}
    {l : Location} (h : fs.resolve? p = some l) : IsListed l := by
  have horigin : IsListed (fs.origin p) := by
    rw [origin]
    split
    · exact nofun
    · exact hcurrent
  have hwalk := destination?_of_resolve? h
  rw [destination?, Option.ite_none_left_eq_some] at hwalk
  exact isListed_of_walk? horigin (fun _ => separator_notMem_of_mem_route) hwalk.2

/-- **Canonical paths tell files apart.** -/
theorem canonicalNames_of_isListed_current {fs : FileSystem} (h : IsListed fs.current) :
    fs.CanonicalNames := by
  intro p q hp hq
  obtain ⟨l, hl⟩ := exists_resolve?_of_isFile hp
  obtain ⟨m, hm⟩ := exists_resolve?_of_isFile hq
  rw [canonical?_of_resolve? hl, canonical?_of_resolve? hm]
  refine ⟨rfl, fun heq => ?_, fun hsame => ?_⟩
  · have hlm := pathOf_injective (isListed_of_resolve? h hl) (isListed_of_resolve? h hm)
      (Option.some.inj heq)
    exact ⟨l, hl, hlm ▸ hm⟩
  · obtain ⟨k, hk, hk'⟩ := hsame
    rw [Option.some.inj (hl.symm.trans hk), Option.some.inj (hm.symm.trans hk')]

end FileSystem

end MapChain
