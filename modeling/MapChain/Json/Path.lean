import MapChain.Json.Value

/-!
# Paths into JSON values

A path leads from a value to a value in it: through an object by the name of a member, and through
an array by the index of an item. `at?` follows a path, `modify` changes what it leads to, and
`paths` lists all that lead somewhere.
-/

namespace MapChain.Json

/-- The way from a value to a value that stands directly in it. -/
inductive Step where
  | member (name : String)
  | item (index : Nat)
  deriving DecidableEq, Repr

/-- The way from a value to a value in it, the first step first. -/
abbrev Path := List Step

/-! ## Following -/

/-- The value that a step leads to. -/
def child? : Json → Step → Option Json
  | .object members, .member name => Fields.get? members name
  | .array items, .item i => items[i]?
  | _, _ => none

/-- The value that a path leads to. -/
def at? : Json → Path → Option Json
  | v, [] => some v
  | v, s :: π => (v.child? s).bind fun w => w.at? π

/-- The steps into a value, in its order. -/
def steps : Json → List Step
  | .object members => members.map fun (n, _) => .member n
  | .array items => (List.range items.length).map .item
  | _ => []

/-- The paths one step below a path that leads to a value. -/
def pathsBelow (v : Json) (π : Path) : List Path :=
  match v.at? π with
  | some w => w.steps.map fun s => π ++ [s]
  | none => []

/-! ## Changing -/

/-- Changes the value of a member, where it stands. -/
def modifyMember (f : Json → Json) (name : String) : Fields → Fields
  | [] => []
  | (n, v) :: members =>
    if n = name then (n, f v) :: members else (n, v) :: modifyMember f name members

/-- Changes the value that a step leads to, where it stands. -/
def modifyChild (f : Json → Json) : Json → Step → Json
  | .object members, .member name => .object (modifyMember f name members)
  | .array items, .item i => .array (items.modify i f)
  | v, _ => v

/-- Changes the value that a path leads to, where it stands. -/
def modify (f : Json → Json) : Json → Path → Json
  | v, [] => f v
  | v, s :: π => v.modifyChild (fun w => w.modify f π) s

/-! ## Listing -/

mutual

/-- All paths that lead to a value. -/
def paths : Json → List Path
  | .array items => [] :: itemPaths 0 items
  | .object members => [] :: memberPaths members
  | _ => [[]]

/-- The paths through items, of which the first has this index. -/
def itemPaths (index : Nat) : List Json → List Path
  | [] => []
  | v :: items => v.paths.map (.item index :: ·) ++ itemPaths (index + 1) items

/-- The paths through members. -/
def memberPaths : List (String × Json) → List Path
  | [] => []
  | (n, v) :: members => v.paths.map (.member n :: ·) ++ memberPaths members

end

end MapChain.Json
