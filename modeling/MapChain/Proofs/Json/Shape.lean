import MapChain.Json.Shape
import MapChain.Proofs.Except

/-!
# What typed readers accept

A reader goes with a writer when it accepts the values that the writer makes, and no others, each as
what was written. The readers of texts, of 32-bit integers and of lists go with writers, and so do
those of values that may be null. With a writer, a field of a record is read as an equation between
the member that is found and the value that is written.
-/

namespace MapChain.Json

theorem string?_eq_some_iff {v : Json} {s : String} : v.string? = some s ↔ v = .string s := by
  cases v <;> simp [string?]

theorem uint32?_eq_some_iff {v : Json} {n : UInt32} : v.uint32? = some n ↔ v = .ofUInt32 n := by
  constructor
  · intro h
    cases v with
    | number x =>
      cases x with
      | real value => cases h
      | integer value fits =>
        simp only [Json.uint32?, Json.Number.toUInt32?, Json.Number.toNat?,
          Option.bind_eq_some_iff, Option.ite_none_right_eq_some, Option.some.injEq] at h
        obtain ⟨k, ⟨hvalue, rfl⟩, hk, rfl⟩ := h
        have hn : (UInt32.ofNat value.toNat).toNat = value.toNat :=
          UInt32.toNat_ofNat_of_lt' hk
        simp only [Json.ofUInt32, Json.Number.ofUInt32, hn, Int.toNat_of_nonneg hvalue]
    | _ => cases h
  · rintro rfl
    exact Json.Number.toUInt32?_ofUInt32 n

namespace Shape

/-! ## Readers with writers -/

section

variable {α : Type} {read : ShapeReader α} {write : α → Json}

/-- A reader accepts just what a writer makes. -/
def Reads (read : ShapeReader α) (write : α → Json) : Prop := ∀ v a, read v = .ok a ↔ v = write a

theorem require_eq_ok_iff {o : Option α} {a : α} : require o = .ok a ↔ o = some a := by
  cases o <;> simp [require]

theorem reads_string : Reads string .string := fun _ _ =>
  require_eq_ok_iff.trans string?_eq_some_iff

theorem reads_uint32 : Reads uint32 .ofUInt32 := fun _ _ =>
  require_eq_ok_iff.trans uint32?_eq_some_iff

theorem Reads.read_write (h : Reads read write) (a : α) : read (write a) = .ok a := (h _ _).mpr rfl

theorem Reads.injective (h : Reads read write) {a b : α} (hab : write a = write b) : a = b := by
  have hb : read (write a) = .ok b := (h _ _).mpr hab
  exact Except.ok.inj ((h.read_write a).symm.trans hb)

/-- A value that may be null is written as null when there is none. -/
def writeNullable (write : α → Json) (o : Option α) : Json := o.elim .null write

theorem getD_map_null (o : Option α) : (o.map write).getD .null = writeNullable write o := by
  cases o <;> rfl

theorem sorted_writeNullable (h : ∀ a, (write a).sorted = write a) (o : Option α) :
    (writeNullable write o).sorted = writeNullable write o := by
  cases o with
  | none => rfl
  | some a => exact h a

theorem nullable_of_ne_null {v : Json} (hv : v ≠ .null) :
    nullable read v = (read v).map some := by
  cases v with
  | null => exact absurd rfl hv
  | _ => rfl

theorem Reads.nullable (h : Reads read write) (hnull : ∀ a, write a ≠ .null) :
    Reads (nullable read) (writeNullable write) := by
  intro v o
  by_cases hv : v = .null
  · subst hv
    cases o with
    | none => simp [Shape.nullable, writeNullable]
    | some a => simp [Shape.nullable, writeNullable, (hnull a).symm]
  · rw [nullable_of_ne_null hv]
    cases o with
    | none => cases hread : read v <;> simp [Except.map, writeNullable, hv]
    | some a =>
      rw [writeNullable, Option.elim_some, ← h v a]
      cases hread : read v <;> simp [Except.map]

theorem each_cons_eq_ok_iff {v : Json} {items : List Json} {as : List α} :
    each read (v :: items) = .ok as ↔
      ∃ a as', read v = .ok a ∧ each read items = .ok as' ∧ as = a :: as' := by
  simp only [each, bind_eq_ok_iff, pure_eq_ok_iff]
  constructor
  · rintro ⟨a, ha, as', has, rfl⟩
    exact ⟨a, as', ha, has, rfl⟩
  · rintro ⟨a, as', ha, has, rfl⟩
    exact ⟨a, ha, as', has, rfl⟩

/-- Items are read when each of them is. -/
theorem exists_each_iff {items : List Json} :
    (∃ as, each read items = .ok as) ↔ ∀ v ∈ items, ∃ a, read v = .ok a := by
  induction items with
  | nil => simp [each]
  | cons v items ih =>
    simp only [each_cons_eq_ok_iff, List.forall_mem_cons, ← ih]
    constructor
    · rintro ⟨_, a, as, ha, has, rfl⟩
      exact ⟨⟨a, ha⟩, as, has⟩
    · rintro ⟨⟨a, ha⟩, as, has⟩
      exact ⟨_, a, as, ha, has, rfl⟩

theorem Reads.each (h : Reads read write) {items : List Json} {as : List α} :
    each read items = .ok as ↔ items = as.map write := by
  induction items generalizing as with
  | nil => simp [Shape.each, eq_comm]
  | cons v items ih =>
    rw [each_cons_eq_ok_iff]
    constructor
    · rintro ⟨a, as', ha, has, rfl⟩
      rw [(h v a).mp ha, ih.mp has, List.map_cons]
    · intro heq
      obtain ⟨a, as', rfl, ha, has⟩ := List.map_eq_cons_iff.mp heq.symm
      exact ⟨a, as', (h v a).mpr ha.symm, ih.mpr has.symm, rfl⟩

theorem Reads.list (h : Reads read write) :
    Reads (list read) fun as => .array (as.map write) := by
  intro v as
  cases v with
  | array items => simpa only [Shape.list, Json.array.injEq] using h.each
  | _ => simp [Shape.list]

/-! ## Fields of records -/

variable {fields : Fields} {name : String}

theorem Reads.required (h : Reads read write) {a : α} :
    required fields name read = .ok a ↔ fields.get? name = some (write a) := by
  rw [Shape.required]
  cases fields.get? name with
  | none => simp
  | some v => simp [h v a]

/-- A field that is left out is read like a default that is written. -/
theorem Reads.defaulted (h : Reads read write) {default a : α} :
    defaulted fields name default read = .ok a ↔
      (fields.get? name).getD (write default) = write a := by
  rw [Shape.defaulted]
  cases fields.get? name with
  | none => simpa using ⟨congrArg write, h.injective⟩
  | some v => simp [h v a]

theorem Reads.optional (h : Reads read write) (hnull : ∀ a, write a ≠ .null) {o : Option α} :
    optional fields name read = .ok o ↔
      (fields.get? name).getD .null = writeNullable write o :=
  (h.nullable hnull).defaulted

end

end Shape

end MapChain.Json
