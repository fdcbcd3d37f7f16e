import Mathlib.Algebra.Group.Int.Defs
import MapChain.Proofs.SourceMap.Spelling

/-!
# Which values are tuples

A tuple is an array whose length is one of three and whose elements each have the kind that belongs
to their place. An origin takes both of its coordinates: where one is left out or null there is
none. What is read and written again differs from what was read in one thing only, a name that has
no origin.

## Layers

- **Kinds**: `kinds` lists what may stand at each place, said without a reader.
- **Shapes**: `exists_ofJson_iff` accepts just the arrays of these kinds.
- **Contents**: `Carries` relates the elements of an array and the tuple they are read as.
- **Statement**: `ofJson_characterized`.
-/

namespace MapChain

/-! ## Kinds -/

/-- An integer that is not negative and fits 32 bits. -/
def Json.IsUInt32 (v : Json) : Prop :=
  ∃ n fits, v = .number (.integer n fits) ∧ 0 ≤ n ∧ n < 2 ^ 32

/-- A text. -/
def Json.IsText (v : Json) : Prop := ∃ s, v = .string s

/-- Null, or a value of some kind. -/
def Json.OrNull (kind : Json → Prop) (v : Json) : Prop := v = .null ∨ kind v

theorem Json.isUInt32_iff {v : Json} : v.IsUInt32 ↔ ∃ n : UInt32, v = .ofUInt32 n := by
  constructor
  · rintro ⟨n, fits, rfl, hnonneg, hlt⟩
    refine ⟨UInt32.ofNat n.toNat, ?_⟩
    have hn : (UInt32.ofNat n.toNat).toNat = n.toNat := by
      apply UInt32.toNat_ofNat_of_lt'
      simp only [UInt32.size]
      omega
    simp only [Json.ofUInt32, Json.Number.ofUInt32, hn, Int.toNat_of_nonneg hnonneg]
  · rintro ⟨n, rfl⟩
    exact ⟨n.toNat, _, rfl, Int.natCast_nonneg _, by exact_mod_cast n.toNat_lt⟩

/-- A value of a kind that a writer makes is null or not, as what is written is there or not. -/
theorem Json.orNull_iff {α : Type} {kind : Json → Prop} {write : α → Json}
    (h : ∀ v, kind v ↔ ∃ a, v = write a) {v : Json} :
    OrNull kind v ↔ ∃ o, v = Shape.writeNullable write o := by
  rw [OrNull, h]
  constructor
  · rintro (rfl | ⟨a, rfl⟩)
    · exact ⟨none, rfl⟩
    · exact ⟨some a, rfl⟩
  · rintro ⟨_ | a, rfl⟩
    · exact .inl rfl
    · exact .inr ⟨a, rfl⟩

theorem Json.orNull_isUInt32_iff {v : Json} :
    OrNull IsUInt32 v ↔ ∃ n, v = Shape.writeNullable .ofUInt32 n :=
  orNull_iff fun _ => isUInt32_iff

theorem Json.orNull_isText_iff {v : Json} :
    OrNull IsText v ↔ ∃ s, v = Shape.writeNullable .string s :=
  orNull_iff fun _ => Iff.rfl

namespace MappingTuple

/-- What may stand at each place of a tuple: a line and a column, a line and a column of the origin
or null, a name or null. -/
def kinds : List (Json → Prop) :=
  [Json.IsUInt32, Json.IsUInt32, Json.OrNull Json.IsUInt32, Json.OrNull Json.IsUInt32,
    Json.OrNull Json.IsText]

/-- The elements of an array are those of a tuple: there are two, four or five, and each is of the
kind that belongs to its place. -/
def IsTuple (items : List Json) : Prop :=
  (items.length = 2 ∨ items.length = 4 ∨ items.length = 5) ∧
    List.Forall₂ (fun kind v => kind v) (kinds.take items.length) items

/-! ## Shapes -/

theorem isTuple_of_spells {v : Json} {t : MappingTuple} (h : Spells v t) :
    ∃ items, v = .array items ∧ IsTuple items := by
  have hnumber (n : UInt32) : (Json.ofUInt32 n).IsUInt32 := Json.isUInt32_iff.mpr ⟨n, rfl⟩
  have hcoordinate (n : Option UInt32) :
      Json.OrNull Json.IsUInt32 (Json.Shape.writeNullable .ofUInt32 n) :=
    Json.orNull_isUInt32_iff.mpr ⟨n, rfl⟩
  have hname (s : Option String) :
      Json.OrNull Json.IsText (Json.Shape.writeNullable .string s) :=
    Json.orNull_isText_iff.mpr ⟨s, rfl⟩
  cases h with
  | generated p => exact ⟨_, rfl, .inl rfl, .cons (hnumber _) (.cons (hnumber _) .nil)⟩
  | traced p line column =>
    exact ⟨_, rfl, .inr (.inl rfl), .cons (hnumber _) (.cons (hnumber _)
      (.cons (hcoordinate _) (.cons (hcoordinate _) .nil)))⟩
  | named p line column name =>
    exact ⟨_, rfl, .inr (.inr rfl), .cons (hnumber _) (.cons (hnumber _)
      (.cons (hcoordinate _) (.cons (hcoordinate _) (.cons (hname _) .nil))))⟩

theorem spells_of_isTuple {items : List Json} (h : IsTuple items) :
    ∃ t, Spells (.array items) t := by
  obtain ⟨hlength, hkinds⟩ := h
  -- The length says how many kinds there are, and these say what the elements are
  rcases hlength with hlength | hlength | hlength
  all_goals
    rw [hlength] at hkinds
    simp only [kinds, List.take_succ_cons, List.take_zero, List.forall₂_cons_left_iff,
      List.forall₂_nil_left_iff, Json.isUInt32_iff, Json.orNull_isUInt32_iff,
      Json.orNull_isText_iff] at hkinds
  · obtain ⟨_, _, ⟨line, rfl⟩, ⟨_, _, ⟨column, rfl⟩, rfl, rfl⟩, rfl⟩ := hkinds
    exact ⟨_, .generated ⟨line, column⟩⟩
  · obtain ⟨_, _, ⟨line, rfl⟩, ⟨_, _, ⟨column, rfl⟩, ⟨_, _, ⟨sourceLine, rfl⟩,
      ⟨_, _, ⟨sourceColumn, rfl⟩, rfl, rfl⟩, rfl⟩, rfl⟩, rfl⟩ := hkinds
    exact ⟨_, .traced ⟨line, column⟩ sourceLine sourceColumn⟩
  · obtain ⟨_, _, ⟨line, rfl⟩, ⟨_, _, ⟨column, rfl⟩, ⟨_, _, ⟨sourceLine, rfl⟩,
      ⟨_, _, ⟨sourceColumn, rfl⟩, ⟨_, _, ⟨name, rfl⟩, rfl, rfl⟩, rfl⟩, rfl⟩, rfl⟩, rfl⟩ := hkinds
    exact ⟨_, .named ⟨line, column⟩ sourceLine sourceColumn name⟩

theorem exists_ofJson_iff {v : Json} :
    (∃ t, ofJson v = .ok t) ↔ ∃ items, v = .array items ∧ IsTuple items := by
  simp only [ofJson_eq_ok_iff]
  constructor
  · rintro ⟨t, ht⟩
    exact isTuple_of_spells ht
  · rintro ⟨items, rfl, hitems⟩
    exact spells_of_isTuple hitems

/-! ## Contents -/

/-- The elements of an array carry a tuple: the first two are its line and column, the next two its
origin, if both are there and neither is null, and the last one its name, if it is a text. -/
structure Carries (items : List Json) (t : MappingTuple) : Prop where
  line : items[0]? = some (.ofUInt32 t.generated.line)
  column : items[1]? = some (.ofUInt32 t.generated.column)
  origin : ∀ o, t.origin = some o ↔
    items[2]? = some (.ofUInt32 o.line) ∧ items[3]? = some (.ofUInt32 o.column)
  hasOrigin : t.origin.isSome ↔
    (∃ v, items[2]? = some v ∧ v ≠ .null) ∧ ∃ v, items[3]? = some v ∧ v ≠ .null
  name : ∀ s, t.name = some s ↔ items[4]? = some (.string s)

theorem originOf_eq_some_iff {line column : Option UInt32} {o : Position} :
    originOf line column = some o ↔ line = some o.line ∧ column = some o.column := by
  obtain ⟨l, c⟩ := o
  simp only [originOf, Option.bind_eq_bind, Option.bind_eq_some_iff, Option.pure_def,
    Option.some.injEq, Position.mk.injEq]
  constructor
  · rintro ⟨_, rfl, _, rfl, rfl, rfl⟩
    exact ⟨rfl, rfl⟩
  · rintro ⟨rfl, rfl⟩
    exact ⟨l, rfl, c, rfl, rfl, rfl⟩

theorem isSome_originOf_iff {line column : Option UInt32} :
    (originOf line column).isSome ↔ Json.Shape.writeNullable .ofUInt32 line ≠ .null ∧
      Json.Shape.writeNullable .ofUInt32 column ≠ .null := by
  cases line <;> cases column <;> simp [originOf, Json.Shape.writeNullable, Json.ofUInt32]

theorem coordinate_eq_iff {n : Option UInt32} {k : UInt32} :
    Json.Shape.writeNullable .ofUInt32 n = .ofUInt32 k ↔ n = some k :=
  ⟨fun h => reads_coordinate.injective (b := some k) h, fun h => h ▸ rfl⟩

theorem name_eq_iff {o : Option String} {s : String} :
    Json.Shape.writeNullable .string o = .string s ↔ o = some s :=
  ⟨fun h => reads_name.injective (b := some s) h, fun h => h ▸ rfl⟩

theorem carries_of_spells {items : List Json} {t : MappingTuple} (h : Spells (.array items) t) :
    Carries items t := by
  cases h with
  | generated p => exact ⟨rfl, rfl, by simp, by simp, by simp⟩
  | traced p line column =>
    refine ⟨rfl, rfl, fun o => ?_, ?_, by simp⟩
    · simp [originOf_eq_some_iff, coordinate_eq_iff]
    · simp [isSome_originOf_iff]
  | named p line column name =>
    refine ⟨rfl, rfl, fun o => ?_, ?_, fun s => ?_⟩
    · simp [originOf_eq_some_iff, coordinate_eq_iff]
    · simp [isSome_originOf_iff]
    · simp [name_eq_iff]

/-! ## Statement -/

/-- What is written of a tuple: all of it, less a name without an origin. -/
def written (t : MappingTuple) : MappingTuple :=
  if t.origin.isSome then t else { t with name := none }

theorem ofJson_toJson (t : MappingTuple) : ofJson t.toJson = .ok t.written := by
  have hwritten : t.written = { t with name := t.origin.bind fun _ => t.name } := by
    obtain ⟨p, _ | o, name⟩ := t <;> rfl
  rw [hwritten]
  exact ofJson_eq_ok_iff.mpr t.spells_toJson

/-- **Reading and writing tuples.** A value is read as a tuple just when it is an array of two, four
or five elements of the kinds that belong to their places, and the elements carry the tuple that is
read. What is written is read as the tuple it was, less a name without an origin, and so whatever was
accepted is read again as it was, apart from such a name, and written again as it was written. -/
theorem ofJson_characterized :
    (∀ v, (∃ t, ofJson v = .ok t) ↔ ∃ items, v = .array items ∧ IsTuple items) ∧
      (∀ items t, ofJson (.array items) = .ok t → Carries items t) ∧
      (∀ t : MappingTuple, ofJson t.toJson = .ok t.written) ∧
      ∀ v t, ofJson v = .ok t → ∃ t', ofJson t.toJson = .ok t' ∧ t'.generated = t.generated ∧
        t'.origin = t.origin ∧ (t.origin.isSome → t'.name = t.name) ∧ t'.toJson = t.toJson := by
  refine ⟨fun v => exists_ofJson_iff, fun items t h => carries_of_spells (ofJson_eq_ok_iff.mp h),
    ofJson_toJson, fun v t _ => ⟨t.written, ofJson_toJson t, ?_⟩⟩
  obtain ⟨p, _ | o, name⟩ := t
  · exact ⟨rfl, rfl, nofun, rfl⟩
  · exact ⟨rfl, rfl, fun _ => rfl, rfl⟩

/-- A name stays without an origin when it is read, and is not written. -/
example : ofJson (.array [.ofUInt32 3, .ofUInt32 2, .ofUInt32 1, .null, .string "n"]) =
      .ok ⟨⟨3, 2⟩, none, some "n"⟩ ∧
    written ⟨⟨3, 2⟩, none, some "n"⟩ = ⟨⟨3, 2⟩, none, none⟩ := by
  decide

end MappingTuple

end MapChain
