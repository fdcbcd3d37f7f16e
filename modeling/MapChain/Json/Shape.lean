import MapChain.Json.Reader
import MapChain.Text.Placeholder

/-!
# Typed reading of JSON values

Readers for values of a known shape. A record is written as an object, whose unknown members do not
matter, or as an array of its fields in the order of their declaration. A field may be required,
optional (left out or null) or have a default (which stands in only where it is left out).

Reading fails without saying where, with one exception: a mapping tuple of a wrong length is
reported with that length.
-/

namespace MapChain.Json

/-! ## Failures -/

/-- Why a value does not have the shape asked for. -/
inductive ShapeError where
  | mismatch
  /-- A mapping tuple of a length that none has. -/
  | tupleLength (length : Nat)
  deriving DecidableEq, Repr

/-- The failure in words. -/
def ShapeError.message : ShapeError → String
  | .mismatch => Placeholder.json
  | .tupleLength n =>
    "invalid length " ++ toString n ++ ", expected a mapping tuple of 2, 4 or 5 elements"

/-- The outcome of reading a value as something of type `α`. -/
abbrev Shaped (α : Type) := Except ShapeError α

/-- A reader for values of one type. -/
abbrev ShapeReader (α : Type) := Json → Shaped α

namespace Shape

/-- The value of an option, which is a mismatch where there is none. -/
def require {α : Type} : Option α → Shaped α
  | some a => .ok a
  | none => .error .mismatch

/-! ## Readers -/

/-- Reads a text. -/
def string : ShapeReader String := fun v => require v.string?

/-- Reads a natural of 32 bits. -/
def uint32 : ShapeReader UInt32 := fun v => require v.uint32?

/-- Reads an object as it is. -/
def fields : ShapeReader Fields := fun v => require v.fields?

/-- Reads null as nothing and any other value as what it holds. -/
def nullable {α : Type} (read : ShapeReader α) : ShapeReader (Option α)
  | .null => .ok none
  | v => (read v).map some

/-- Reads each item of a list; the first failure counts. -/
def each {α : Type} (read : ShapeReader α) : List Json → Shaped (List α)
  | [] => .ok []
  | v :: items => do
    let a ← read v
    let as ← each read items
    return a :: as

/-- Reads an array of things of one shape. -/
def list {α : Type} (read : ShapeReader α) : ShapeReader (List α)
  | .array items => each read items
  | _ => .error .mismatch

/-! ## Records -/

/-- The fields of a record, each found by its name where it is present. -/
def record (names : List String) : Json → Shaped Fields
  | .object members => .ok members
  | .array items => if items.length ≤ names.length then .ok (names.zip items) else .error .mismatch
  | _ => .error .mismatch

/-- Reads a field that must be there. -/
def required {α : Type} (fields : Fields) (name : String) (read : ShapeReader α) : Shaped α :=
  match fields.get? name with
  | some v => read v
  | none => .error .mismatch

/-- Reads a field with a default. -/
def defaulted {α : Type} (fields : Fields) (name : String) (default : α) (read : ShapeReader α) :
    Shaped α :=
  match fields.get? name with
  | some v => read v
  | none => .ok default

/-- Reads a field that may be missing or null. -/
def optional {α : Type} (fields : Fields) (name : String) (read : ShapeReader α) :
    Shaped (Option α) :=
  defaulted fields name none (nullable read)

end Shape

end MapChain.Json
