import MapChain.Proofs.Json.Compact
import MapChain.Proofs.Json.Sorted

/-!
# The same document

Two values are the same document when at each path the same stands in both: the same word, the same
string, numbers of the same text, arrays of the same length, objects with the same names in any
order.

## Layers

- **The same document**: `SameDocument`, and what it says of a value and the values directly in it.
- **Sorting**: where names differ, a value and the sorted value are the same document.
- **Trees**: sorted values are written alike exactly when they are the same document.

Main results: `compact_eq_compact_iff_sameDocument` and `DistinctNames.sameDocument_sorted`.
-/

namespace MapChain.Json

/-! ## The same document -/

/-- The same head: numbers are compared by their texts, names without regard to their order. -/
inductive Head.Same : Head → Head → Prop where
  | null : Same .null .null
  | bool (b : Bool) : Same (.bool b) (.bool b)
  | number {m n : Number} (h : m.text = n.text) : Same (.number m) (.number n)
  | string (s : String) : Same (.string s) (.string s)
  | array (length : Nat) : Same (.array length) (.array length)
  | object {a b : List String} (h : a.Perm b) : Same (.object a) (.object b)

theorem Head.Same.refl (h : Head) : h.Same h := by
  cases h with
  | null => exact .null
  | bool b => exact .bool b
  | number n => exact .number rfl
  | string s => exact .string s
  | array length => exact .array length
  | object names => exact .object (.refl names)

/-- The same JSON document: at each path the heads are the same. -/
def SameDocument (v w : Json) : Prop := ∀ π, Option.Rel Head.Same (v.headAt? π) (w.headAt? π)

theorem headAt?_cons (v : Json) (s : Step) (π : Path) :
    v.headAt? (s :: π) = (v.child? s).bind fun w => w.headAt? π := by
  rw [headAt?, at?_cons, Option.map_bind]
  rfl

/-- A value and the values directly in it tell whether the document is the same. -/
theorem sameDocument_iff_child {v w : Json} : SameDocument v w ↔
    v.head.Same w.head ∧ ∀ s, Option.Rel SameDocument (v.child? s) (w.child? s) := by
  constructor
  · intro h
    -- The empty path tells the heads, and the others tell of the values directly in the two
    refine ⟨?_, fun s => ?_⟩
    · cases h []
      assumption
    · have hs (π : Path) := h (s :: π)
      simp only [headAt?_cons] at hs
      generalize v.child? s = a at hs ⊢
      generalize w.child? s = b at hs ⊢
      cases a with
      | none =>
        cases b with
        | none => exact .none
        | some _ => cases hs []
      | some _ =>
        cases b with
        | none => cases hs []
        | some _ => exact .some hs
  · rintro ⟨hhead, hchild⟩ π
    cases π with
    | nil => exact .some hhead
    | cons s π =>
      rw [headAt?_cons, headAt?_cons]
      have hs := hchild s
      generalize v.child? s = a at hs ⊢
      generalize w.child? s = b at hs ⊢
      cases hs with
      | some h => exact h π
      | none => exact .none

@[refl] theorem SameDocument.refl (v : Json) : SameDocument v v := by
  intro π
  cases v.headAt? π with
  | none => exact .none
  | some h => exact .some (.refl h)

/-- Objects in which names differ are the same document when they have the same members. -/
theorem sameDocument_object {a b : Fields} (ha : a.names.Nodup) (hb : b.names.Nodup)
    (h : ∀ name, Option.Rel SameDocument (a.get? name) (b.get? name)) :
    SameDocument (.object a) (.object b) := by
  have hnames : a.names.Perm b.names := by
    rw [List.perm_ext_iff_of_nodup ha hb]
    intro name
    rw [← Fields.isSome_get?_iff, ← Fields.isSome_get?_iff]
    have hname := h name
    generalize a.get? name = v at hname ⊢
    generalize b.get? name = w at hname ⊢
    cases hname <;> rfl
  refine sameDocument_iff_child.mpr ⟨.object hnames, fun s => ?_⟩
  cases s with
  | member name => exact h name
  | item i => exact .none

/-! ## Sorting -/

/-- In no object in a value two members have the same name. -/
def DistinctNames (v : Json) : Prop :=
  ∀ π members, v.at? π = some (.object members) → (Fields.names members).Nodup

theorem Sorted.distinctNames {v : Json} (h : v.Sorted) : v.DistinctNames :=
  fun π members hπ => (h π members hπ).nodup

theorem DistinctNames.child {v w : Json} {s : Step} (h : v.DistinctNames)
    (hw : v.child? s = some w) : w.DistinctNames := by
  intro π members hπ
  apply h (s :: π) members
  rw [at?_cons, hw]
  exact hπ

theorem distinctNames_object {members : Fields} (hnodup : members.names.Nodup)
    (h : ∀ m ∈ members, m.2.Sorted) : (object members).DistinctNames := by
  intro π members' hπ
  cases π with
  | nil =>
    cases hπ
    exact hnodup
  | cons s π =>
    obtain ⟨w, hw, hρ⟩ := Option.bind_eq_some_iff.mp hπ
    cases s with
    | item i => cases hw
    | member name => exact (h _ (Fields.mem_of_get? hw)).distinctNames π members' hρ

/-- **Sorting does not change the document.** -/
theorem DistinctNames.sameDocument_sorted {v : Json} (h : v.DistinctNames) :
    SameDocument v v.sorted := by
  induction v using inductionOnChildren with
  | step v ih =>
    have hchild (s : Step) (w : Json) (hw : v.child? s = some w) : SameDocument w w.sorted :=
      ih s w hw (h.child hw)
    cases v with
    | object members =>
      -- Sorting moves members and keeps what each name leads to
      have hnodup : (Fields.names members).Nodup := h [] members rfl
      refine sameDocument_object hnodup (Fields.sorted_ofList _).nodup fun name => ?_
      rw [get?_ofList_sortedMembers hnodup]
      cases hw : Fields.get? members name with
      | none => exact .none
      | some w => exact .some (hchild (.member name) w hw)
    | array items =>
      rw [sorted, sortedItems_eq_map]
      refine sameDocument_iff_child.mpr ⟨?_, fun s => ?_⟩
      · rw [head, head, List.length_map]
        exact .array _
      · cases s with
        | member name => exact .none
        | item i =>
          rw [child?, child?, List.getElem?_map]
          cases hw : items[i]? with
          | none => exact .none
          | some w => exact .some (hchild (.item i) w hw)
    | _ => exact .refl _

/-! ## Trees -/

/-- Arrays are written alike when their items are. -/
theorem itemTrees_eq_iff {a b : List Json} :
    itemTrees a = itemTrees b ↔ ∀ i : Nat, (a[i]?).map toTree = (b[i]?).map toTree := by
  simp only [itemTrees_eq_map, List.ext_getElem?_iff, List.getElem?_map]

/-- Objects are written alike when they have the same names in the same order, and by each the same
is written. -/
theorem memberTrees_eq_iff {a b : Fields} (h : a.names.Nodup) :
    memberTrees a = memberTrees b ↔
      a.names = b.names ∧ ∀ name, (a.get? name).map toTree = (b.get? name).map toTree := by
  induction a generalizing b with
  | nil =>
    cases b with
    | nil => exact ⟨fun _ => ⟨rfl, fun _ => rfl⟩, fun _ => rfl⟩
    | cons m b => exact ⟨nofun, fun h => by cases h.1⟩
  | cons m a ih =>
    obtain ⟨n, v⟩ := m
    cases b with
    | nil => exact ⟨nofun, fun h => by cases h.1⟩
    | cons m b =>
      obtain ⟨n', v'⟩ := m
      obtain ⟨hfresh, hnodup⟩ := List.nodup_cons.mp h
      rw [memberTrees, memberTrees, List.cons.injEq, Prod.mk.injEq, ih hnodup, Fields.names_cons,
        Fields.names_cons, List.cons.injEq]
      simp only [Fields.get?_cons]
      constructor
      · rintro ⟨⟨hname, hvalue⟩, hnames, hget⟩
        obtain rfl := Quoted.encode_injective hname
        refine ⟨⟨rfl, hnames⟩, fun name => ?_⟩
        split
        next => exact congrArg some hvalue
        next => exact hget name
      · rintro ⟨⟨rfl, hnames⟩, hget⟩
        refine ⟨⟨rfl, ?_⟩, hnames, fun name => ?_⟩
        · simpa using hget n
        · by_cases hn : name = n
          · -- The first name is not among the others
            subst hn
            rw [Fields.get?_eq_none_iff.mpr hfresh, Fields.get?_eq_none_iff.mpr (hnames ▸ hfresh)]
          · simpa [hn] using hget name

@[simp] theorem toTree_null : toTree .null = .word .null := rfl

@[simp] theorem toTree_bool (b : Bool) :
    (bool b).toTree = .word (bif b then .true else .false) := by
  cases b <;> rfl

@[simp] theorem toTree_number (n : Number) : (number n).toTree = .number n.text := rfl

@[simp] theorem toTree_string (s : String) :
    (string s).toTree = .string (Quoted.encode s.toList) := rfl

@[simp] theorem toTree_array (items : List Json) :
    (array items).toTree = .array (itemTrees items) := rfl

@[simp] theorem toTree_object (members : Fields) :
    (object members).toTree = .object (memberTrees members) := rfl

/-- Of values that are written alike the heads are the same, and so is what is written for the
values directly in them. -/
theorem same_of_toTree_eq {v w : Json} (hv : v.Sorted) (h : v.toTree = w.toTree) :
    v.head.Same w.head ∧ ∀ s, (v.child? s).map toTree = (w.child? s).map toTree := by
  -- Values of different kinds have different trees
  cases v <;> cases w <;>
    simp only [toTree_null, toTree_bool, toTree_number, toTree_string, toTree_array, toTree_object,
      Tree.word.injEq, Tree.number.injEq, Tree.string.injEq, Tree.array.injEq, Tree.object.injEq,
      reduceCtorEq] at h
  case null.null => exact ⟨.null, fun s => rfl⟩
  case bool.null b => cases b <;> cases h
  case null.bool b => cases b <;> cases h
  case bool.bool b c =>
    obtain rfl : b = c := by
      revert h
      cases b <;> cases c <;> simp
    exact ⟨.bool _, fun s => rfl⟩
  case number.number m n => exact ⟨.number h, fun s => rfl⟩
  case string.string s t =>
    obtain rfl := Quoted.encode_injective h
    exact ⟨.string _, fun s => rfl⟩
  case array.array a b =>
    have hlength : a.length = b.length := by
      simpa [itemTrees_eq_map] using congrArg List.length h
    refine ⟨?_, fun s => ?_⟩
    · rw [head, head, hlength]
      exact .array _
    · cases s with
      | item i => exact itemTrees_eq_iff.mp h i
      | member name => rfl
  case object.object a b =>
    obtain ⟨hnames, hget⟩ := (memberTrees_eq_iff hv.members.nodup).mp h
    refine ⟨.object (.of_eq hnames), fun s => ?_⟩
    cases s with
    | item i => rfl
    | member name => exact hget name

/-- Sorted values of the same head are written alike when the values directly in them are. -/
theorem toTree_eq_of_same {v w : Json} (hv : v.Sorted) (hw : w.Sorted) (hhead : v.head.Same w.head)
    (hchild : ∀ s, (v.child? s).map toTree = (w.child? s).map toTree) : v.toTree = w.toTree := by
  cases v with
  | array a =>
    cases w with
    | array b => rw [toTree_array, toTree_array, itemTrees_eq_iff.mpr fun i => hchild (.item i)]
    | _ => cases hhead
  | object a =>
    cases w with
    | object b =>
      cases hhead with
      | object h =>
        have hnames := hv.members.names_eq_of_perm hw.members h
        have hget (name : String) := hchild (.member name)
        rw [toTree_object, toTree_object,
          (memberTrees_eq_iff hv.members.nodup).mpr ⟨hnames, hget⟩]
    | _ => cases hhead
  | number m =>
    cases w with
    | number n =>
      cases hhead with
      | number h => rw [toTree_number, toTree_number, h]
    | _ => cases hhead
  | _ =>
    cases w <;> cases hhead
    rfl

theorem toTree_eq_iff {v w : Json} (hv : v.Sorted) (hw : w.Sorted) : v.toTree = w.toTree ↔
    v.head.Same w.head ∧ ∀ s, (v.child? s).map toTree = (w.child? s).map toTree :=
  ⟨same_of_toTree_eq hv, fun h => toTree_eq_of_same hv hw h.1 h.2⟩

/-- **Sorted values are written alike exactly when they are the same document.** -/
theorem compact_eq_compact_iff_sameDocument {v w : Json} (hv : v.Sorted) (hw : w.Sorted) :
    v.compact = w.compact ↔ SameDocument v w := by
  rw [compact_eq_compact_iff]
  induction v using inductionOnChildren generalizing w with
  | step v ih =>
    rw [toTree_eq_iff hv hw, sameDocument_iff_child]
    refine and_congr_right fun _ => forall_congr' fun s => ?_
    cases ha : v.child? s with
    | none => cases w.child? s <;> simp
    | some a =>
      cases hb : w.child? s with
      | none => simp
      | some b => simp [ih s a ha (hv.child ha) (hw.child hb)]

end MapChain.Json
