import MapChain.Json.Value

/-!
# Merging documents

A document is laid over the one it extends. Each of its members replaces the member of that name,
with one exception: compiler options that are objects on both sides are merged option by option. An
option is replaced as a whole, so what is nested in it is not merged.
-/

namespace MapChain

/-! ## Members over members -/

/-- The member with the options of the compiler. -/
def optionsMember : String := "compilerOptions"

/-- Sets members one after another. -/
def Fields.overlay (base derived : Fields) : Fields :=
  derived.foldl (fun fields (name, value) => fields.insert name value) base

/-- The value of a member after a value is laid over it. -/
def overlayValue (name : String) (base : Option Json) (value : Json) : Json :=
  match base, value with
  | some (.object options), .object more =>
    if name = optionsMember then .object (Fields.overlay options more) else value
  | _, _ => value

/-! ## Documents over documents -/

/-- Lays one member over the members of a document. -/
def mergeMember (base : Fields) (name : String) (value : Json) : Fields :=
  base.insert name (overlayValue name (base.get? name) value)

/-- Lays the members of a document over those of the one it extends. -/
def mergeDocuments (base derived : Fields) : Fields :=
  derived.foldl (fun fields (name, value) => mergeMember fields name value) base

end MapChain
