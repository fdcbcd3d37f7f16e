import Mathlib.Data.Set.Card
import MapChain.Json.Equality
import MapChain.Proofs.Relocate.Walk

/-!
# What relocating does to a tree

Which points are moved, and where to, is said of the tree before the walk, path by path. The heads
at all paths determine a tree, so this is all there is to say about the tree after it.
-/

namespace MapChain.Relocate

/-! ## Points by their paths -/

/-- A path leads to a point of a location: through an object under one of the names of a location,
to an object under one of the names of a point, whose line and column are integers of 32 bits. -/
def IsPoint (tree : Json) (π : Json.Path) (p : Position) : Prop :=
  ∃ node, ∃ key ∈ locationNames, ∃ edge ∈ pointNames, ∃ location point : Fields,
    π = node ++ [.member key, .member edge] ∧
      tree.at? (node ++ [.member key]) = some (.object location) ∧
      location.get? edge = some (.object point) ∧
      point.get? "line" = some (.ofUInt32 p.line) ∧ point.get? "column" = some (.ofUInt32 p.column)

/-- A tree is what another becomes when its points move to where they come from. -/
structure IsRelocation (map : SourceMap) (tree tree' : Json) : Prop where
  sorted : tree'.Sorted
  moved : ∀ π p o, IsPoint tree π p → map.trace p = some o →
    tree'.at? (π ++ [.member "line"]) = some (.ofUInt32 o.position.line) ∧
      tree'.at? (π ++ [.member "column"]) = some (.ofUInt32 o.position.column)
  /-- Nothing else changes: no kind of value, no number of items, no name of a member and no order
  of names, and no value that is neither an array nor an object. -/
  kept : ∀ ρ, (∀ π p, IsPoint tree π p → (map.trace p).isSome → ¬ IsCoordinate ρ π) →
    tree'.headAt? ρ = tree.headAt? ρ

theorem isPoint_iff {tree : Json} {π : Json.Path} {p : Position} :
    IsPoint tree π p ↔ (∃ node, ∃ ρ ∈ pointPaths, π = node ++ ρ) ∧ positionAt? tree π = some p := by
  constructor
  · rintro ⟨node, key, hkey, edge, hedge, location, point, rfl, hlocation, hpoint, hline, hcolumn⟩
    refine ⟨⟨node, _, List.mem_flatMap.mpr ⟨key, hkey, List.mem_map_of_mem hedge⟩, rfl⟩, ?_⟩
    have hat : tree.at? (node ++ [.member key, .member edge]) = some (.object point) := by
      rw [List.append_cons, at?_append_member, hlocation]
      exact hpoint
    rw [positionAt?, hat]
    exact position?_eq_some_iff.mpr ⟨hline, hcolumn⟩
  · rintro ⟨⟨node, ρ, hρ, rfl⟩, hposition⟩
    obtain ⟨key, hkey, hρ⟩ := List.mem_flatMap.mp hρ
    obtain ⟨edge, hedge, rfl⟩ := List.mem_map.mp hρ
    obtain ⟨point, hpoint, hp⟩ := Option.bind_eq_some_iff.mp hposition
    rw [bind_fields?_eq_some_iff, List.append_cons, at?_append_member,
      Option.bind_eq_some_iff] at hpoint
    obtain ⟨location, hlocation, hget⟩ := hpoint
    exact ⟨node, key, hkey, edge, hedge, location, point, rfl,
      bind_fields?_eq_some_iff.mp hlocation, hget, position?_eq_some_iff.mp hp⟩

section Moved

variable {tree : Json} {visited : List Json.Path}

/-- The points that the map resolves are among those that are moved on behalf of the values. -/
theorem mem_pointsOf (hsorted : tree.Sorted) (hvisited : visited.Perm tree.paths)
    {π : Json.Path} {p : Position} (h : IsPoint tree π p) : π ∈ pointsOf visited := by
  obtain ⟨⟨node, ρ, hρ, rfl⟩, hposition⟩ := isPoint_iff.mp h
  obtain ⟨point, hpoint, -⟩ := Option.bind_eq_some_iff.mp hposition
  have hat : (tree.at? (node ++ ρ)).isSome := by
    rw [bind_fields?_eq_some_iff.mp hpoint]
    rfl
  have hnode : node ∈ tree.paths := hsorted.mem_paths_iff.mpr (Json.at?_isSome_of_append hat)
  exact List.mem_flatMap.mpr ⟨node, hvisited.mem_iff.mpr hnode, List.mem_map_of_mem hρ⟩

theorem targetAt?_eq_some_iff {map : SourceMap} {π : Json.Path} {q : Position}
    (hπ : π ∈ pointsOf visited) :
    targetAt? map tree π = some q ↔
      ∃ p o, IsPoint tree π p ∧ map.trace p = some o ∧ o.position = q := by
  have hends : ∃ node, ∃ ρ ∈ pointPaths, π = node ++ ρ := by
    obtain ⟨node, -, hπ⟩ := List.mem_flatMap.mp hπ
    obtain ⟨ρ, hρ, rfl⟩ := List.mem_map.mp hπ
    exact ⟨node, ρ, hρ, rfl⟩
  rw [targetAt?_eq_bind, Option.bind_eq_some_iff]
  simp only [Option.map_eq_some_iff, isPoint_iff, hends, true_and]
  constructor
  · rintro ⟨p, hp, o, ho, hq⟩
    exact ⟨p, o, hp, ho, hq⟩
  · rintro ⟨p, o, hp, ho, hq⟩
    exact ⟨p, hp, o, ho, hq⟩

theorem isSome_targetAt?_iff {map : SourceMap} {π : Json.Path} (hπ : π ∈ pointsOf visited) :
    (targetAt? map tree π).isSome ↔ ∃ p, IsPoint tree π p ∧ (map.trace p).isSome := by
  rw [Option.isSome_iff_exists]
  simp only [targetAt?_eq_some_iff hπ, Option.isSome_iff_exists]
  constructor
  · rintro ⟨q, p, o, hp, ho, -⟩
    exact ⟨p, hp, o, ho⟩
  · rintro ⟨p, hp, o, ho⟩
    exact ⟨_, p, o, hp, ho, rfl⟩

end Moved

/-! ## The tree and the count -/

theorem isRelocation_relocate {tree : Json} (hsorted : tree.Sorted) (map : SourceMap) :
    IsRelocation map tree (relocate map tree).1 := by
  obtain ⟨visited, pending, hvisited, h⟩ := relocate_relocated hsorted map
  refine ⟨h.sorted hsorted, fun π p o hp ho => ?_, fun ρ hρ => h.kept ρ fun π hπ hsome => ?_⟩
  · have hπ := mem_pointsOf hsorted hvisited hp
    have hmoved := h.moved π hπ o.position ((targetAt?_eq_some_iff hπ).mpr ⟨p, o, hp, ho, rfl⟩)
    rw [positionAt?_eq_some_iff, Json.headAt?_eq_number_iff, Json.headAt?_eq_number_iff] at hmoved
    exact hmoved
  · obtain ⟨p, hp, htrace⟩ := (isSome_targetAt?_iff hπ).mp hsome
    exact hρ π p hp htrace

/-- A tree has only one relocation. -/
theorem IsRelocation.unique {map : SourceMap} {tree tree₁ tree₂ : Json}
    (h₁ : IsRelocation map tree tree₁) (h₂ : IsRelocation map tree tree₂) : tree₁ = tree₂ := by
  apply h₁.sorted.eq_of_headAt?_eq
  intro ρ
  by_cases hρ : ∀ π p, IsPoint tree π p → (map.trace p).isSome → ¬ IsCoordinate ρ π
  · rw [h₁.kept ρ hρ, h₂.kept ρ hρ]
  · -- A coordinate of a point that moves is the same in both trees
    push Not at hρ
    obtain ⟨π, p, hp, hsome, hcoordinate⟩ := hρ
    obtain ⟨o, ho⟩ := Option.isSome_iff_exists.mp hsome
    have hmoved₁ := h₁.moved π p o hp ho
    have hmoved₂ := h₂.moved π p o hp ho
    rcases hcoordinate with rfl | rfl
    · rw [Json.headAt?, Json.headAt?, hmoved₁.1, hmoved₂.1]
    · rw [Json.headAt?, Json.headAt?, hmoved₁.2, hmoved₂.2]

/-- As many points are moved as there are points that the map resolves. -/
theorem encard_resolved_points {tree : Json} (hsorted : tree.Sorted) (map : SourceMap) :
    {π | ∃ p, IsPoint tree π p ∧ (map.trace p).isSome}.encard = (relocate map tree).2 := by
  obtain ⟨visited, pending, hvisited, h⟩ := relocate_relocated hsorted map
  have hset : {π | ∃ p, IsPoint tree π p ∧ (map.trace p).isSome} =
      ((pointsOf visited).filter fun π => (targetAt? map tree π).isSome).toFinset := by
    ext π
    simp only [Set.mem_ofPred_eq, Finset.mem_coe, List.mem_toFinset, List.mem_filter]
    constructor
    · rintro ⟨p, hp, hsome⟩
      have hπ := mem_pointsOf hsorted hvisited hp
      exact ⟨hπ, (isSome_targetAt?_iff hπ).mpr ⟨p, hp, hsome⟩⟩
    · rintro ⟨hπ, hsome⟩
      exact (isSome_targetAt?_iff hπ).mp hsome
  have hnodup : (pointsOf visited).Nodup :=
    nodup_pointsOf (hvisited.nodup_iff.mpr hsorted.nodup_paths)
  rw [hset, Set.encard_coe_eq_coe_finsetCard, List.toFinset_card_of_nodup (hnodup.filter _),
    ← List.countP_eq_length_filter, ← h.count]

/-- **Relocating a tree moves its points and nothing else.** The points of locations that the map
resolves, anywhere in the tree, take the positions that those of the tree before come from; all
else stays, and no other tree is like this. The count is the number of these points. -/
theorem relocate_characterized {tree : Json} (hsorted : tree.Sorted) (map : SourceMap) :
    (∀ tree', IsRelocation map tree tree' ↔ (relocate map tree).1 = tree') ∧
      {π | ∃ p, IsPoint tree π p ∧ (map.trace p).isSome}.encard = (relocate map tree).2 := by
  have hrelocation := isRelocation_relocate hsorted map
  refine ⟨fun tree' => ⟨fun h => hrelocation.unique h, ?_⟩, encard_resolved_points hsorted map⟩
  rintro rfl
  exact hrelocation

/-- A tree with a location inside a point, one inside a location, and points that are none. -/
def nestedTree : Json :=
  .object [("loc", .object [
    ("end", .object [("column", .ofUInt32 0), ("line", .ofUInt32 9)]),
    ("location", .object [("start", .object [("column", .ofUInt32 7), ("line", .ofUInt32 1)])]),
    ("start", .object [("column", .ofUInt32 2), ("line", .ofUInt32 1), ("loc", .object [
      ("end", .object [("column", .ofUInt32 6), ("line", .ofUInt32 1)]),
      ("start", .object [("column", .string "0"), ("line", .ofUInt32 1)])])])])]

/-- A map with two mappings on its first line. -/
def shortMap : SourceMap where
  file := none
  sources := [⟨"a.ts", none⟩]
  mappings := [⟨⟨1, 0⟩, some ⟨"a.ts", ⟨3, 2⟩, none⟩⟩, ⟨⟨1, 6⟩, some ⟨"a.ts", ⟨3, 10⟩, none⟩⟩]

/-- Three of the points move, two of them inside the location of the root. -/
theorem relocate_nestedTree :
    nestedTree.Sorted ∧ IsRelocation shortMap nestedTree (relocate shortMap nestedTree).1 ∧
      {π | ∃ p, IsPoint nestedTree π p ∧ (shortMap.trace p).isSome}.encard = 3 ∧
      (relocate shortMap nestedTree).1.at? [.member "loc", .member "start"] =
        some (.object [("column", .ofUInt32 2), ("line", .ofUInt32 3), ("loc", .object [
          ("end", .object [("column", .ofUInt32 10), ("line", .ofUInt32 3)]),
          ("start", .object [("column", .string "0"), ("line", .ofUInt32 1)])])]) := by
  have hsorted : nestedTree.Sorted := by
    have hsame : nestedTree.sorted = nestedTree := by decide +kernel
    rw [← hsame]
    exact Json.sorted_sorted nestedTree
  obtain ⟨hrelocation, hcount⟩ := relocate_characterized hsorted shortMap
  have hthree : (relocate shortMap nestedTree).2 = 3 := by decide +kernel
  rw [hthree] at hcount
  exact ⟨hsorted, (hrelocation _).mpr rfl, hcount, by decide +kernel⟩

end MapChain.Relocate
