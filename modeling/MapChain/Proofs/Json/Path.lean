import Mathlib.Data.List.Infix
import MapChain.Json.Path
import MapChain.Proofs.Json.Fields

/-!
# What stands at the paths of a value

A value is looked at path by path. The head of a value is what it is apart from the values in it. A
change in one place is described by the heads that it changes.

## Layers

- **Heads**: `headAt?`, the values that follow a path in two parts.
- **Values in values**: `inductionOnChildren`, from the values directly in a value to this one.
- **Changes**: `at?_modify_append` and `headAt?_modify_of_not_prefix`, inside and outside of what is
  changed.
-/

namespace MapChain.Json

/-! ## Heads -/

/-- A value without the values in it. -/
inductive Head where
  | null
  | bool (value : Bool)
  | number (value : Number)
  | string (value : String)
  | array (length : Nat)
  | object (names : List String)
  deriving DecidableEq

/-- The head of a value. -/
def head : Json → Head
  | .null => .null
  | .bool b => .bool b
  | .number n => .number n
  | .string s => .string s
  | .array items => .array items.length
  | .object members => .object (Fields.names members)

/-- The head of the value that a path leads to. -/
def headAt? (v : Json) (π : Path) : Option Head := (v.at? π).map head

/-- The steps into a value with this head. -/
def Head.steps : Head → List Step
  | .array length => (List.range length).map .item
  | .object names => names.map .member
  | _ => []

@[simp] theorem at?_nil (v : Json) : v.at? [] = some v := rfl

theorem at?_cons (v : Json) (s : Step) (π : Path) :
    v.at? (s :: π) = (v.child? s).bind fun w => w.at? π := rfl

theorem at?_append (v : Json) (π ρ : Path) :
    v.at? (π ++ ρ) = (v.at? π).bind fun w => w.at? ρ := by
  induction π generalizing v with
  | nil => rfl
  | cons s π ih =>
    rw [List.cons_append, at?_cons, at?_cons, Option.bind_assoc]
    exact congrArg _ (funext fun w => ih w)

theorem at?_singleton (v : Json) (s : Step) : v.at? [s] = v.child? s := by
  rw [at?_cons]
  cases v.child? s <;> rfl

theorem at?_isSome_of_append {v : Json} {π ρ : Path} (h : (v.at? (π ++ ρ)).isSome) :
    (v.at? π).isSome := by
  rw [at?_append] at h
  cases hv : v.at? π with
  | none => simp [hv] at h
  | some w => rfl

theorem head_eq_number_iff {v : Json} {n : Number} : v.head = .number n ↔ v = .number n := by
  cases v <;> simp [head]

theorem headAt?_eq_number_iff {v : Json} {π : Path} {n : Number} :
    v.headAt? π = some (.number n) ↔ v.at? π = some (.number n) := by
  rw [headAt?, Option.map_eq_some_iff]
  constructor
  · rintro ⟨w, hw, hhead⟩
    rw [hw, head_eq_number_iff.mp hhead]
  · intro h
    exact ⟨_, h, rfl⟩

theorem steps_head (v : Json) : v.head.steps = v.steps := by
  cases v with
  | object members => simp [head, Head.steps, steps, Fields.names]
  | _ => rfl

theorem mem_steps_iff {v : Json} {s : Step} : s ∈ v.steps ↔ (v.child? s).isSome := by
  cases v with
  | object members =>
    cases s with
    | item i => simp [steps, child?]
    | member name => simp [steps, child?, Fields.isSome_get?_iff, Fields.names]
  | array items => cases s <;> simp [steps, child?]
  | _ => cases s <;> simp [steps, child?]

theorem pathsBelow_eq (v : Json) (π : Path) :
    v.pathsBelow π = ((v.headAt? π).elim [] Head.steps).map fun s => π ++ [s] := by
  rw [pathsBelow, headAt?]
  cases v.at? π with
  | none => rfl
  | some w => rw [Option.map_some, Option.elim_some, steps_head]

/-! ## Values in values -/

theorem sizeOf_lt_of_child? {v w : Json} {s : Step} (h : v.child? s = some w) :
    sizeOf w < sizeOf v := by
  cases v with
  | object members =>
    cases s with
    | item i => cases h
    | member name =>
      have hlt := List.sizeOf_lt_of_mem (Fields.mem_of_get? h)
      simp only [object.sizeOf_spec, Prod.mk.sizeOf_spec] at hlt ⊢
      omega
  | array items =>
    cases s with
    | member name => cases h
    | item i =>
      have hlt := List.sizeOf_lt_of_mem (List.mem_of_getElem? h)
      simp only [array.sizeOf_spec]
      omega
  | _ => cases s <;> cases h

/-- What passes from the values directly in a value to the value holds of every value. -/
theorem inductionOnChildren {motive : Json → Prop}
    (step : ∀ v, (∀ s w, v.child? s = some w → motive w) → motive v) (v : Json) : motive v :=
  step v fun _ w _ => inductionOnChildren step w
termination_by sizeOf v
decreasing_by exact sizeOf_lt_of_child? ‹_›

/-! ## Changes -/

theorem get?_modifyMember (f : Json → Json) (name : String) (members : Fields) (other : String) :
    (modifyMember f name members).get? other =
      if name = other then (members.get? other).map f else members.get? other := by
  induction members with
  | nil => simp [modifyMember, Fields.get?]
  | cons entry members ih =>
    obtain ⟨n, v⟩ := entry
    rw [modifyMember, Fields.get?_cons]
    by_cases hn : n = name
    · -- Only the first member of this name is changed, which is the one that is found
      subst hn
      rw [if_pos rfl, Fields.get?_cons]
      by_cases ho : other = n
      · subst ho
        simp
      · rw [if_neg ho, if_neg ho, if_neg (Ne.symm ho)]
    · rw [if_neg hn, Fields.get?_cons, ih]
      by_cases ho : other = n
      · subst ho
        simp [Ne.symm hn]
      · simp [ho]

theorem names_modifyMember (f : Json → Json) (name : String) (members : Fields) :
    Fields.names (modifyMember f name members) = members.names := by
  induction members with
  | nil => rfl
  | cons entry members ih =>
    obtain ⟨n, v⟩ := entry
    rw [modifyMember]
    split
    · rfl
    · rw [Fields.names_cons, Fields.names_cons, ih]

theorem head_modifyChild (f : Json → Json) (v : Json) (s : Step) :
    (v.modifyChild f s).head = v.head := by
  cases v with
  | object members =>
    cases s with
    | item i => rfl
    | member name => rw [modifyChild, head, head, names_modifyMember]
  | array items => cases s <;> simp [modifyChild, head]
  | _ => rfl

theorem child?_modifyChild (f : Json → Json) (v : Json) (s t : Step) :
    (v.modifyChild f s).child? t = if s = t then (v.child? t).map f else v.child? t := by
  cases v with
  | object members =>
    cases s <;> cases t <;> simp [modifyChild, child?, get?_modifyMember]
  | array items =>
    cases s <;> cases t <;> simp [modifyChild, child?, List.getElem?_modify]
    split <;> simp
  | _ => cases t <;> simp [modifyChild, child?]

/-- Behind the path of a change stands what the changed value has there. -/
theorem at?_modify_append (f : Json → Json) (v : Json) (π ρ : Path) :
    (v.modify f π).at? (π ++ ρ) = (v.at? π).bind fun w => (f w).at? ρ := by
  induction π generalizing v with
  | nil => rfl
  | cons s π ih =>
    rw [modify, List.cons_append, at?_cons, child?_modifyChild, if_pos rfl, Option.bind_map,
      at?_cons, Option.bind_assoc]
    exact congrArg _ (funext fun w => ih w)

/-- A change leaves every head that is not behind its path. -/
theorem headAt?_modify_of_not_prefix (f : Json → Json) (v : Json) {π ρ : Path}
    (h : ¬ π <+: ρ) : (v.modify f π).headAt? ρ = v.headAt? ρ := by
  induction π generalizing v ρ with
  | nil => exact absurd List.nil_prefix h
  | cons s π ih =>
    cases ρ with
    | nil =>
      -- Above the change the value keeps its kind, its length and its names
      exact congrArg some (head_modifyChild _ v s)
    | cons t ρ =>
      rw [modify, headAt?, headAt?, at?_cons, at?_cons, child?_modifyChild]
      by_cases hst : s = t
      · subst hst
        have hπ : ¬ π <+: ρ := fun hπ => h (List.cons_prefix_cons.mpr ⟨rfl, hπ⟩)
        rw [if_pos rfl, Option.bind_map, Option.map_bind, Option.map_bind]
        exact congrArg _ (funext fun w => ih w hπ)
      · rw [if_neg hst]

end MapChain.Json
