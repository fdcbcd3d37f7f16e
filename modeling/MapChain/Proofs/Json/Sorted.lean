import Mathlib.Data.List.Range
import MapChain.Json.Reader
import MapChain.Proofs.Json.Path

/-!
# Sorted values

Every value that is read has its members sorted, in every object that it contains. In such a value
each path that leads somewhere leads to one place, and the heads at all paths say everything about
the value.

## Layers

- **Sorted values**: `Sorted`, for what is sorted and for what is read.
- **Listing**: `paths_eq` gives the paths of a value by those of the values in it; each path that
  leads somewhere is listed, and once.
- **Equality**: `eq_of_headAt?_eq`.
-/

namespace MapChain.Json

/-! ## Sorted values -/

/-- The members of every object in a value are sorted. -/
def Sorted (v : Json) : Prop :=
  ∀ π members, v.at? π = some (.object members) → Fields.Sorted members

theorem Sorted.at? {v w : Json} {π : Path} (h : v.Sorted) (hw : v.at? π = some w) :
    w.Sorted := by
  intro ρ members hρ
  apply h (π ++ ρ) members
  rw [at?_append, hw]
  exact hρ

theorem Sorted.child {v w : Json} {s : Step} (h : v.Sorted) (hw : v.child? s = some w) :
    w.Sorted :=
  h.at? ((at?_singleton v s).trans hw)

theorem Sorted.members {members : Fields} (h : (Json.object members).Sorted) : members.Sorted :=
  h [] members rfl

/-- A value is sorted as soon as its own members and the values directly in it are. -/
theorem sorted_of_child {v : Json} (hself : ∀ members, v = .object members → Fields.Sorted members)
    (hchild : ∀ s w, v.child? s = some w → w.Sorted) : v.Sorted := by
  intro π members hπ
  cases π with
  | nil => exact hself members (Option.some.inj hπ)
  | cons s π =>
    obtain ⟨w, hw, hπ⟩ := Option.bind_eq_some_iff.mp hπ
    exact hchild s w hw π members hπ

/-- Whether a value is sorted can be seen from the heads of its objects. -/
theorem Sorted.of_headAt? {v w : Json} (h : v.Sorted)
    (hheads : ∀ π names, w.headAt? π = some (.object names) → v.headAt? π = w.headAt? π) :
    w.Sorted := by
  intro π members hw
  have hhead : w.headAt? π = some (.object (Fields.names members)) := by
    rw [headAt?, hw]
    rfl
  have hv := (hheads π _ hhead).trans hhead
  rw [headAt?, Option.map_eq_some_iff] at hv
  obtain ⟨u, hu, hnames⟩ := hv
  cases u with
  | object members' =>
    have hsorted := h π members' hu
    rwa [Fields.Sorted, Head.object.inj hnames] at hsorted
  | _ => cases hnames

theorem sorted_of_steps_eq_nil {v : Json} (h : v.steps = []) : v.Sorted := by
  apply sorted_of_child
  · rintro members rfl
    rw [List.map_eq_nil_iff.mp h]
    exact List.Pairwise.nil
  · intro s w hw
    have hs : s ∈ v.steps := mem_steps_iff.mpr (by rw [hw]; rfl)
    rw [h] at hs
    cases hs

theorem sorted_array {items : List Json} (h : ∀ v ∈ items, v.Sorted) : (array items).Sorted := by
  apply sorted_of_child
  · exact fun _ heq => Json.noConfusion heq
  intro s w hw
  cases s with
  | member name => cases hw
  | item i => exact h w (List.mem_of_getElem? hw)

/-- An object is sorted when its members are and so is every value among them. -/
theorem sorted_object_iff {members : Fields} :
    (object members).Sorted ↔
      members.Sorted ∧ ∀ name v, members.get? name = some v → v.Sorted := by
  refine ⟨fun h => ⟨h.members, fun name v hv => h.child (s := .member name) hv⟩, fun h => ?_⟩
  apply sorted_of_child
  · rintro _ ⟨⟩
    exact h.1
  · intro s w hw
    cases s with
    | item i => cases hw
    | member name => exact h.2 name w hw

theorem sorted_object_ofList {members : List (String × Json)} (h : ∀ m ∈ members, m.2.Sorted) :
    (object (Fields.ofList members)).Sorted :=
  sorted_object_iff.mpr ⟨Fields.sorted_ofList members, fun name v hv =>
    h (name, v) (Fields.mem_ofList (Fields.mem_of_get? hv))⟩

theorem Sorted.insert {members : Fields} (h : (object members).Sorted) (name : String) {v : Json}
    (hv : v.Sorted) : (object (members.insert name v)).Sorted := by
  refine sorted_object_iff.mpr ⟨h.members.insert name v, fun other w hw => ?_⟩
  rw [Fields.get?_insert] at hw
  split at hw
  · cases hw
    exact hv
  · exact (sorted_object_iff.mp h).2 other w hw

theorem Sorted.erase {members : Fields} (h : (object members).Sorted) (name : String) :
    (object (members.erase name)).Sorted := by
  refine sorted_object_iff.mpr ⟨h.members.erase name, fun other w hw => ?_⟩
  rw [Fields.get?_erase, Option.ite_none_left_eq_some] at hw
  exact (sorted_object_iff.mp h).2 other w hw.2

mutual

theorem sorted_sorted : ∀ v : Json, v.sorted.Sorted
  | .array items => sorted_array (sorted_of_mem_sortedItems items)
  | .object members => sorted_object_ofList (sorted_of_mem_sortedMembers members)
  | .null | .bool _ | .number _ | .string _ => sorted_of_steps_eq_nil rfl

theorem sorted_of_mem_sortedItems : ∀ items : List Json, ∀ v ∈ sortedItems items, v.Sorted
  | [] => nofun
  | v :: items => List.forall_mem_cons.mpr ⟨sorted_sorted v, sorted_of_mem_sortedItems items⟩

theorem sorted_of_mem_sortedMembers :
    ∀ members : List (String × Json), ∀ m ∈ sortedMembers members, m.2.Sorted
  | [] => nofun
  | (_, v) :: members =>
    List.forall_mem_cons.mpr ⟨sorted_sorted v, sorted_of_mem_sortedMembers members⟩

end

/-- A value that sorting does not change is sorted. -/
theorem sorted_of_sorted_eq {v : Json} (h : v.sorted = v) : v.Sorted := h ▸ sorted_sorted v

theorem sortedItems_eq_map (items : List Json) : sortedItems items = items.map sorted := by
  induction items with
  | nil => rfl
  | cons v items ih => rw [sortedItems, ih, List.map_cons]

theorem sortedMembers_eq_map (members : List (String × Json)) :
    sortedMembers members = members.map fun m => (m.1, m.2.sorted) := by
  induction members with
  | nil => rfl
  | cons m members ih => rw [sortedMembers, ih, List.map_cons]

/-- Where the names differ, sorting the members of an object sorts the value of each. -/
theorem get?_ofList_sortedMembers {members : Fields} (hnodup : members.names.Nodup)
    (name : String) :
    (Fields.ofList (sortedMembers members)).get? name = (members.get? name).map sorted := by
  rw [sortedMembers_eq_map, Fields.get?_ofList (by rwa [Fields.names, List.map_map])]
  clear hnodup
  induction members with
  | nil => rfl
  | cons m members ih =>
    rw [List.map_cons, Fields.get?_cons, Fields.get?_cons, ih]
    split <;> rfl

/-- Sorting changes nothing in an array of values in which it changes nothing. -/
theorem sorted_array_map {α : Type} {write : α → Json} (h : ∀ a, (write a).sorted = write a)
    (as : List α) : (array (as.map write)).sorted = array (as.map write) := by
  rw [sorted, sortedItems_eq_map, List.map_map]
  exact congrArg array (List.map_congr_left fun a _ => h a)

mutual

theorem sorted_of_ofTree? : ∀ (t : Tree) (v : Json), ofTree? t = some v → v.Sorted
  | .word w, v, h => by
    apply sorted_of_steps_eq_nil
    cases w <;> cases h <;> rfl
  | .number literal, v, h => by
    obtain ⟨n, -, rfl⟩ := Option.map_eq_some_iff.mp h
    exact sorted_of_steps_eq_nil rfl
  | .string body, v, h => by
    obtain ⟨text, -, rfl⟩ := Option.map_eq_some_iff.mp h
    exact sorted_of_steps_eq_nil rfl
  | .array items, v, h => by
    obtain ⟨vs, hvs, rfl⟩ := Option.map_eq_some_iff.mp h
    exact sorted_array (sorted_of_itemsOfTrees? items vs hvs)
  | .object members, v, h => by
    obtain ⟨ms, hms, rfl⟩ := Option.map_eq_some_iff.mp h
    exact sorted_object_ofList (sorted_of_membersOfTrees? members ms hms)

theorem sorted_of_itemsOfTrees? : ∀ (items : List Tree) (vs : List Json),
    itemsOfTrees? items = some vs → ∀ v ∈ vs, v.Sorted
  | [], vs, h => by
    cases h
    exact nofun
  | t :: items, vs, h => by
    simp only [itemsOfTrees?, Option.bind_eq_bind, Option.bind_eq_some_iff] at h
    obtain ⟨w, hw, ws, hws, heq⟩ := h
    cases heq
    exact List.forall_mem_cons.mpr
      ⟨sorted_of_ofTree? t w hw, sorted_of_itemsOfTrees? items ws hws⟩

theorem sorted_of_membersOfTrees? : ∀ (members : List (List Char × Tree))
    (ms : List (String × Json)), membersOfTrees? members = some ms → ∀ m ∈ ms, m.2.Sorted
  | [], ms, h => by
    cases h
    exact nofun
  | (k, t) :: members, ms, h => by
    simp only [membersOfTrees?, Option.bind_eq_bind, Option.bind_eq_some_iff] at h
    obtain ⟨n, -, w, hw, ws, hws, heq⟩ := h
    cases heq
    exact List.forall_mem_cons.mpr
      ⟨sorted_of_ofTree? t w hw, sorted_of_membersOfTrees? members ws hws⟩

end

/-- Every value that is read is sorted. -/
theorem sorted_of_ofText? {text : String} {v : Json} (h : ofText? text = some v) : v.Sorted := by
  obtain ⟨t, -, ht⟩ := Option.bind_eq_some_iff.mp h
  rw [ofShallowTree?] at ht
  split at ht
  · exact sorted_of_ofTree? t v ht
  · cases ht

/-! ## Listing -/

theorem Sorted.nodup_steps {v : Json} (h : v.Sorted) : v.steps.Nodup := by
  rw [← steps_head]
  cases v with
  | object members => exact h.members.nodup.map fun _ _ => Step.member.inj
  | array items => exact List.nodup_range.map fun _ _ => Step.item.inj
  | _ => exact List.nodup_nil

/-- The paths of a value that begin with a path. -/
def pathsFrom (v : Json) (π : Path) : List Path := ((v.at? π).elim [] paths).map (π ++ ·)

theorem itemPaths_eq (index : Nat) (items : List Json) :
    itemPaths index items = (List.range items.length).flatMap fun i =>
      ((items[i]?).elim [] paths).map (.item (index + i) :: ·) := by
  induction items generalizing index with
  | nil => rfl
  | cons v items ih =>
    rw [itemPaths, ih, List.length_cons, List.range_succ_eq_map, List.flatMap_cons,
      List.flatMap_map]
    refine congrArg₂ _ rfl (congrArg₂ _ (funext fun i => ?_) rfl)
    rw [Nat.succ_eq_add_one, List.getElem?_cons_succ, Nat.add_right_comm, Nat.add_assoc]

theorem memberPaths_eq (members : Fields) :
    memberPaths members = members.flatMap fun m => m.2.paths.map (.member m.1 :: ·) := by
  induction members with
  | nil => rfl
  | cons entry members ih =>
    rw [memberPaths, ih]
    rfl

/-- The paths of a value are its own and those through each of the values directly in it. -/
theorem Sorted.paths_eq {v : Json} (h : v.Sorted) :
    v.paths = [] :: v.steps.flatMap fun s => v.pathsFrom [s] := by
  cases v with
  | object members =>
    rw [paths, memberPaths_eq, steps, List.flatMap_map]
    refine congrArg _ (List.flatMap_congr fun m hmem => ?_)
    -- As names differ, a member that is listed is the one that its name leads to
    obtain ⟨n, w⟩ := m
    have hchild : (Json.object members).child? (.member n) = some w :=
      Fields.get?_of_mem h.members.nodup hmem
    rw [pathsFrom, at?_singleton, hchild]
    rfl
  | array items =>
    rw [paths, itemPaths_eq, steps, List.flatMap_map]
    refine congrArg _ (List.flatMap_congr fun i _ => ?_)
    rw [pathsFrom, at?_singleton, Nat.zero_add]
    rfl
  | _ => rfl

/-- The paths that begin with a path are this one and those that begin one step below it. -/
theorem Sorted.pathsFrom_eq {v w : Json} (h : v.Sorted) {π : Path} (hw : v.at? π = some w) :
    v.pathsFrom π = π :: (v.pathsBelow π).flatMap v.pathsFrom := by
  rw [pathsFrom, pathsBelow, hw, Option.elim_some, (h.at? hw).paths_eq, List.map_cons,
    List.append_nil, List.map_flatMap, List.flatMap_map]
  refine congrArg _ (List.flatMap_congr fun s _ => ?_)
  rw [pathsFrom, pathsFrom, at?_append, hw, Option.bind_some, List.map_map]
  refine List.map_congr_left fun ρ _ => ?_
  rw [Function.comp_apply, List.append_assoc]

theorem Sorted.mem_paths_iff {v : Json} (h : v.Sorted) {π : Path} :
    π ∈ v.paths ↔ (v.at? π).isSome := by
  induction π generalizing v with
  | nil => simp [h.paths_eq]
  | cons s π ih =>
    have hmem : s :: π ∈ v.paths ↔ ∃ w, v.child? s = some w ∧ π ∈ w.paths := by
      rw [h.paths_eq, List.mem_cons, List.mem_flatMap]
      constructor
      · rintro (hnil | ⟨t, -, ht⟩)
        · cases hnil
        · obtain ⟨ρ, hρ, heq⟩ := List.mem_map.mp ht
          obtain ⟨rfl, rfl⟩ := List.cons.inj heq
          rw [at?_singleton] at hρ
          cases hw : v.child? t with
          | none => simp [hw] at hρ
          | some w => exact ⟨w, rfl, by simpa [hw] using hρ⟩
      · rintro ⟨w, hw, hπ⟩
        refine .inr ⟨s, mem_steps_iff.mpr (by rw [hw]; rfl), ?_⟩
        rw [pathsFrom, at?_singleton, hw]
        exact List.mem_map_of_mem hπ
    rw [hmem, at?_cons, Option.isSome_bind]
    cases hw : v.child? s with
    | none => simp
    | some w => simp [ih (h.child hw)]

/-- No path is listed twice. -/
theorem Sorted.nodup_paths {v : Json} (h : v.Sorted) : v.paths.Nodup := by
  induction v using inductionOnChildren with
  | step v ih =>
    rw [h.paths_eq, List.nodup_cons]
    refine ⟨?_, List.nodup_flatMap.mpr ⟨fun s _ => ?_, h.nodup_steps.imp fun hne => ?_⟩⟩
    · intro hmem
      obtain ⟨s, -, hs⟩ := List.mem_flatMap.mp hmem
      obtain ⟨ρ, -, heq⟩ := List.mem_map.mp hs
      cases heq
    · rw [pathsFrom, at?_singleton]
      cases hw : v.child? s with
      | none => exact List.nodup_nil
      | some w => exact (ih s w hw (h.child hw)).map (List.append_right_injective [s])
    · -- Paths through different steps begin differently
      intro ρ hρ hρ'
      obtain ⟨σ, -, rfl⟩ := List.mem_map.mp hρ
      obtain ⟨σ', -, heq⟩ := List.mem_map.mp hρ'
      exact hne (List.cons.inj heq).1.symm

/-! ## Equality -/

/-- A sorted value is determined by the heads at all paths. -/
theorem Sorted.eq_of_headAt?_eq {v w : Json} (h : v.Sorted)
    (hheads : ∀ π, v.headAt? π = w.headAt? π) : v = w := by
  induction v using inductionOnChildren generalizing w with
  | step v ih =>
    have hroot : v.head = w.head := Option.some.inj (hheads [])
    -- Equal heads have equal steps, and the values behind them are equal by induction
    have hchild : ∀ s, s ∈ v.steps → v.child? s = w.child? s := by
      intro s hs
      obtain ⟨a, ha⟩ := Option.isSome_iff_exists.mp (mem_steps_iff.mp hs)
      obtain ⟨b, hb⟩ : ∃ b, w.child? s = some b := by
        rw [← steps_head, hroot, steps_head, mem_steps_iff] at hs
        exact Option.isSome_iff_exists.mp hs
      rw [ha, hb]
      refine congrArg some (ih s a ha (h.child ha) fun π => ?_)
      have hπ := hheads (s :: π)
      rwa [headAt?, headAt?, at?_cons, at?_cons, ha, hb] at hπ
    cases v with
    | array items =>
      cases w with
      | array items' =>
        have hlength : items.length = items'.length := Head.array.inj hroot
        refine congrArg array (List.ext_getElem? fun i => ?_)
        by_cases hi : i < items.length
        · exact hchild (.item i) (mem_steps_iff.mpr (by simp [child?, hi]))
        · rw [List.getElem?_eq_none (not_lt.mp hi), List.getElem?_eq_none (by omega)]
      | _ => cases hroot
    | object members =>
      cases w with
      | object members' =>
        have hnames : Fields.names members = Fields.names members' := Head.object.inj hroot
        refine congrArg object (Fields.eq_of_get?_eq h.members.nodup hnames fun name => ?_)
        by_cases hname : name ∈ Fields.names members
        · exact hchild (.member name) (mem_steps_iff.mpr (Fields.isSome_get?_iff.mpr hname))
        · rw [Fields.get?_eq_none_iff.mpr hname, Fields.get?_eq_none_iff.mpr (hnames ▸ hname)]
      | _ => cases hroot
    | _ =>
      cases w <;> cases hroot
      rfl

end MapChain.Json
