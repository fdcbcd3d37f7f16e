import MapChain.Association
import MapChain.Json.Tree

/-!
# JSON values

A value is what a JSON text means: numbers and strings are decoded, and the members of an object
have names that differ. A value keeps its members in the order they are written in. Values that are
read have them sorted by name, which is the order of the names' UTF-8 bytes as well as of their code
points; values that are built in another order are written in that order.

`Fields` is the list of an object's members, with the operations of a sorted map.
-/

namespace MapChain

/-! ## The values -/

/-- A JSON value. -/
inductive Json where
  | null
  | bool (value : Bool)
  | number (value : Json.Number)
  | string (value : String)
  | array (items : List Json)
  | object (members : List (String × Json))

/-- The members of an object. -/
abbrev Fields := List (String × Json)

/-! ## Sorted members -/

namespace Fields

/-- The value of a member. -/
def get? (fields : Fields) (name : String) : Option Json := fields.lookup name

/-- Sets a member in members sorted by name. -/
def insert (name : String) (value : Json) : Fields → Fields
  | [] => [(name, value)]
  | (n, v) :: fields =>
    if name < n then (name, value) :: (n, v) :: fields
    else if name = n then (name, value) :: fields
    else (n, v) :: insert name value fields

/-- Removes a member. -/
def erase (fields : Fields) (name : String) : Fields := fields.filter (·.1 != name)

/-- Whether there is a member of this name. -/
def contains (fields : Fields) (name : String) : Bool := (fields.get? name).isSome

/-- Setting a member changes the value of that member and of no other. -/
theorem get?_insert (fields : Fields) (name : String) (value : Json) (other : String) :
    (fields.insert name value).get? other =
      if other = name then some value else fields.get? other := by
  unfold get?
  induction fields with
  | nil => simp [insert, Association.lookup_cons]
  | cons entry fields ih =>
    obtain ⟨n, v⟩ := entry
    unfold insert
    split
    · rw [Association.lookup_cons]
    · split
      next h =>
        subst h
        simp only [Association.lookup_cons]
        split <;> rfl
      next h =>
        rw [Association.lookup_cons, ih, Association.lookup_cons]
        by_cases ho : other = n
        · subst ho
          simp [Ne.symm h]
        · simp [ho]

/-- Removing a member removes that member and no other. -/
theorem get?_erase (fields : Fields) (name other : String) :
    (fields.erase name).get? other = if other = name then none else fields.get? other :=
  Association.lookup_filter fields name other

/-- Sorts members by name; of members of one name the last counts. -/
def ofList (members : List (String × Json)) : Fields :=
  members.foldl (fun fields (name, value) => fields.insert name value) []

end Fields

namespace Json

/-- An integer of 32 bits. -/
def ofUInt32 (n : UInt32) : Json := .number (.ofUInt32 n)

/-- A text, or null where there is none. -/
def ofString? : Option String → Json
  | none => .null
  | some s => .string s

/-! ## Views -/

/-- The text of a string. -/
def string? : Json → Option String
  | .string s => some s
  | _ => none

/-- The truth value of a boolean. -/
def bool? : Json → Option Bool
  | .bool b => some b
  | _ => none

/-- The members of an object. -/
def fields? : Json → Option Fields
  | .object members => some members
  | _ => none

/-- The value of an integer of 32 bits. -/
def uint32? : Json → Option UInt32
  | .number n => n.toUInt32?
  | _ => none

/-! ## Sorting -/

mutual

/-- The same value with the members of every object in it sorted. -/
def sorted : Json → Json
  | .array items => .array (sortedItems items)
  | .object members => .object (Fields.ofList (sortedMembers members))
  | v => v

/-- Sorts every item. -/
def sortedItems : List Json → List Json
  | [] => []
  | v :: items => v.sorted :: sortedItems items

/-- Sorts the value of every member. -/
def sortedMembers : List (String × Json) → List (String × Json)
  | [] => []
  | (n, v) :: members => (n, v.sorted) :: sortedMembers members

end

/-! ## Writing -/

mutual

/-- The tree that writes a value. -/
def toTree : Json → Tree
  | .null => .word .null
  | .bool true => .word .true
  | .bool false => .word .false
  | .number n => .number n.text
  | .string s => .string (Quoted.encode s.toList)
  | .array items => .array (itemTrees items)
  | .object members => .object (memberTrees members)

/-- The trees of items. -/
def itemTrees : List Json → List Tree
  | [] => []
  | v :: items => v.toTree :: itemTrees items

/-- The trees of members. -/
def memberTrees : List (String × Json) → List (List Char × Tree)
  | [] => []
  | (n, v) :: members => (Quoted.encode n.toList, v.toTree) :: memberTrees members

end

/-- Writes a value without spaces. -/
def compact (v : Json) : String := String.ofList (writeTokens v.toTree.tokens)

/-! ## Writing with line breaks -/

/-- A line break and the indentation of a level. -/
def newLine (level : Nat) : List Char := '\n' :: List.replicate (2 * level) ' '

mutual

/-- Writes a value with each item and member on a line of its own, two spaces deeper than what holds
it. Empty arrays and objects take no break. -/
def prettyFrom (level : Nat) : Json → List Char
  | .array [] => ['[', ']']
  | .array (v :: items) =>
    '[' :: newLine (level + 1) ++ prettyFrom (level + 1) v ++ prettyItems (level + 1) items ++
      newLine level ++ [']']
  | .object [] => ['\x7b', '\x7d']
  | .object ((n, v) :: members) =>
    '\x7b' :: newLine (level + 1) ++ '"' :: Quoted.encode n.toList ++ ['"', ':', ' '] ++
      prettyFrom (level + 1) v ++ prettyMembers (level + 1) members ++ newLine level ++ ['\x7d']
  | .null => Word.null.text
  | .bool true => Word.true.text
  | .bool false => Word.false.text
  | .number n => n.text
  | .string s => '"' :: Quoted.encode s.toList ++ ['"']

/-- Writes the items after the first. -/
def prettyItems (level : Nat) : List Json → List Char
  | [] => []
  | v :: items => ',' :: newLine level ++ prettyFrom level v ++ prettyItems level items

/-- Writes the members after the first. -/
def prettyMembers (level : Nat) : List (String × Json) → List Char
  | [] => []
  | (n, v) :: members =>
    ',' :: newLine level ++ '"' :: Quoted.encode n.toList ++ ['"', ':', ' '] ++
      prettyFrom level v ++ prettyMembers level members

end

/-- Writes a value with line breaks. -/
def pretty (v : Json) : String := String.ofList (prettyFrom 0 v)

end Json

end MapChain
