import MapChain.Json.Value

/-!
# Equality of JSON values

Two values are the same when they are built the same way; objects are compared with the order of
their members. Equality is decided by walking both at once, so that closed statements about values
run.
-/

namespace MapChain.Json

/-! ## Walking two values -/

mutual

/-- Whether two values are the same. -/
def same : Json → Json → Bool
  | .null, .null => true
  | .bool a, .bool b => a == b
  | .number a, .number b => a = b
  | .string a, .string b => a == b
  | .array a, .array b => sameItems a b
  | .object a, .object b => sameMembers a b
  | _, _ => false

/-- Whether items are the same, one by one. -/
def sameItems : List Json → List Json → Bool
  | [], [] => true
  | v :: a, w :: b => same v w && sameItems a b
  | _, _ => false

/-- Whether members are the same, one by one. -/
def sameMembers : List (String × Json) → List (String × Json) → Bool
  | [], [] => true
  | (m, v) :: a, (n, w) :: b => m == n && same v w && sameMembers a b
  | _, _ => false

end

/-! ## Deciding -/

mutual

/-- The walk succeeds on equal values only. -/
theorem same_iff : ∀ v w : Json, same v w = true ↔ v = w
  | .null, w => by cases w <;> simp [same]
  | .bool _, w => by cases w <;> simp [same]
  | .number _, w => by cases w <;> simp [same]
  | .string _, w => by cases w <;> simp [same]
  | .array a, w => by cases w <;> simp [same, sameItems_iff a]
  | .object a, w => by cases w <;> simp [same, sameMembers_iff a]

/-- The walk succeeds on equal items only. -/
theorem sameItems_iff : ∀ a b : List Json, sameItems a b = true ↔ a = b
  | [], b => by cases b <;> simp [sameItems]
  | v :: a, b => by cases b <;> simp [sameItems, same_iff v, sameItems_iff a]

/-- The walk succeeds on equal members only. -/
theorem sameMembers_iff : ∀ a b : List (String × Json), sameMembers a b = true ↔ a = b
  | [], b => by cases b <;> simp [sameMembers]
  | (m, v) :: a, b => by
    cases b with
    | nil => simp [sameMembers]
    | cons entry b => simp [sameMembers, same_iff v, sameMembers_iff a, Prod.ext_iff, and_assoc]

end

instance : DecidableEq Json := fun v w => decidable_of_iff _ (same_iff v w)

end MapChain.Json
