import MapChain.Json.Value

/-!
# Reading JSON values

A text means a value when it has a tree, the tree is at most 127 levels deep, every string in it
spells a text and every number in it is within reach. Members of an object are sorted, and of
members of one name the last one counts.
-/

namespace MapChain.Json

/-! ## Values of trees -/

/-- The deepest nesting of arrays and objects that is read. -/
def maxDepth : Nat := 127

mutual

/-- The value of a tree of any depth. -/
def ofTree? : Tree → Option Json
  | .word .null => some .null
  | .word .true => some (.bool true)
  | .word .false => some (.bool false)
  | .number literal =>
    ((NumberLiteral.ofChars? literal).bind NumberLiteral.value?).map .number
  | .string body => (Quoted.decode? body).map .string
  | .array items => (itemsOfTrees? items).map .array
  | .object members => (membersOfTrees? members).map fun ms => .object (Fields.ofList ms)

/-- The values of items. -/
def itemsOfTrees? : List Tree → Option (List Json)
  | [] => some []
  | t :: items => do return (← ofTree? t) :: (← itemsOfTrees? items)

/-- The names and values of members, in their order. -/
def membersOfTrees? : List (List Char × Tree) → Option (List (String × Json))
  | [] => some []
  | (k, t) :: members => do
    return (← Quoted.decode? k, ← ofTree? t) :: (← membersOfTrees? members)

end

/-- The value of a tree that is not too deep. -/
def ofShallowTree? (t : Tree) : Option Json := if t.depth ≤ maxDepth then ofTree? t else none

/-! ## Values of texts -/

/-- The value of a text given as characters. -/
def ofChars? (text : List Char) : Option Json := (Tree.ofText? text).bind ofShallowTree?

/-- The value of a text. -/
def ofText? (text : String) : Option Json := ofChars? text.toList

end MapChain.Json
