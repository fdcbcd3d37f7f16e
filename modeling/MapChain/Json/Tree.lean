import MapChain.Json.Token

/-!
# JSON syntax trees

The tree of a JSON text says what the grammar sees in it and no more: literals are kept as they were
written, and the members of an object stand in the order of the text with every repetition. What a
literal is worth, and which of two members of one name counts, is for a reader of the tree to say.

A tree has one sequence of tokens, and `Tree.ofTokens?` reads it back.
-/

namespace MapChain.Json

/-! ## The trees -/

/-- The tree of a JSON text. -/
inductive Tree where
  | word (w : Word)
  | number (literal : List Char)
  | string (body : List Char)
  | array (items : List Tree)
  | object (members : List (List Char × Tree))

namespace Tree

mutual

/-- How many arrays and objects stand inside one another. -/
def depth : Tree → Nat
  | .word _ => 0
  | .number _ => 0
  | .string _ => 0
  | .array items => 1 + depthItems items
  | .object members => 1 + depthMembers members

/-- The greatest depth among items. -/
def depthItems : List Tree → Nat
  | [] => 0
  | t :: items => max t.depth (depthItems items)

/-- The greatest depth among members. -/
def depthMembers : List (List Char × Tree) → Nat
  | [] => 0
  | (_, t) :: members => max t.depth (depthMembers members)

end

/-! ## Tokens of a tree -/

mutual

/-- The tokens of a tree. -/
def tokens : Tree → List Token
  | .word w => [.word w]
  | .number literal => [.number literal]
  | .string body => [.string body]
  | .array [] => [.openBracket, .closeBracket]
  | .array (t :: items) => .openBracket :: t.tokens ++ itemTokens items
  | .object [] => [.openBrace, .closeBrace]
  | .object ((k, t) :: members) =>
    .openBrace :: .string k :: .colon :: t.tokens ++ memberTokens members

/-- The tokens of an array after its first item. -/
def itemTokens : List Tree → List Token
  | [] => [.closeBracket]
  | t :: items => .comma :: t.tokens ++ itemTokens items

/-- The tokens of an object after its first member. -/
def memberTokens : List (List Char × Tree) → List Token
  | [] => [.closeBrace]
  | (k, t) :: members => .comma :: .string k :: .colon :: t.tokens ++ memberTokens members

end

/-! ## Reading tokens

Each reader takes as fuel a number of tokens it may look at, which every step lowers by one, and
returns the tokens it left. -/

mutual

/-- Reads one tree from the start of the tokens. -/
def read : Nat → List Token → Option (Tree × List Token)
  | 0, _ => none
  | _ + 1, [] => none
  | _ + 1, .word w :: rest => some (.word w, rest)
  | _ + 1, .number literal :: rest => some (.number literal, rest)
  | _ + 1, .string body :: rest => some (.string body, rest)
  | _ + 1, .openBracket :: .closeBracket :: rest => some (.array [], rest)
  | fuel + 1, .openBracket :: rest => do
    let (t, rest) ← read fuel rest
    let (items, rest) ← readItems fuel rest
    return (.array (t :: items), rest)
  | _ + 1, .openBrace :: .closeBrace :: rest => some (.object [], rest)
  | fuel + 1, .openBrace :: .string k :: .colon :: rest => do
    let (t, rest) ← read fuel rest
    let (members, rest) ← readMembers fuel rest
    return (.object ((k, t) :: members), rest)
  | _ + 1, _ :: _ => none

/-- Reads what follows an item of an array: more items, or its end. -/
def readItems : Nat → List Token → Option (List Tree × List Token)
  | 0, _ => none
  | _ + 1, .closeBracket :: rest => some ([], rest)
  | fuel + 1, .comma :: rest => do
    let (t, rest) ← read fuel rest
    let (items, rest) ← readItems fuel rest
    return (t :: items, rest)
  | _ + 1, _ => none

/-- Reads what follows a member of an object: more members, or its end. -/
def readMembers : Nat → List Token → Option (List (List Char × Tree) × List Token)
  | 0, _ => none
  | _ + 1, .closeBrace :: rest => some ([], rest)
  | fuel + 1, .comma :: .string k :: .colon :: rest => do
    let (t, rest) ← read fuel rest
    let (members, rest) ← readMembers fuel rest
    return ((k, t) :: members, rest)
  | _ + 1, _ => none

end

/-- The tree whose tokens these are. -/
def ofTokens? (ts : List Token) : Option Tree :=
  match read ts.length ts with
  | some (t, []) => some t
  | _ => none

/-- The tree of a text. -/
def ofText? (text : List Char) : Option Tree := (tokens? text).bind ofTokens?

end Tree

end MapChain.Json
