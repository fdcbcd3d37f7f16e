/-!
# Paths

A path is text, and joining or showing it never changes a part of it: a `.` or `..` in it stays
until the path is looked up. Only the way from a path to the directory that holds it passes over
what adds nothing, which are repeated separators, a separator at the end, and a `.` that is not the
first part.
-/

namespace MapChain

/-- The text of a path. -/
structure Path where
  text : String
  deriving DecidableEq, Repr

namespace Path

/-! ## Parts -/

/-- Stands between two parts, and before the first part of an absolute path. -/
def separator : Char := '/'

/-- Cuts characters at every separator; the pieces may be empty. -/
def pieces : List Char → List (List Char)
  | [] => [[]]
  | c :: cs =>
    if c = separator then [] :: pieces cs
    else match pieces cs with
      | [] => [[c]]
      | p :: ps => (c :: p) :: ps

/-- Puts a separator between each two pieces. -/
def ofPieces (ps : List (List Char)) : List Char := [separator].intercalate ps

/-- Whether a path starts at the root. -/
def isAbsolute (p : Path) : Bool := p.text.toList.head? == some separator

/-- Whether a piece adds nothing to a path. -/
def isVoid (piece : List Char) : Bool := piece == [] || piece == ['.']

/-- Pieces that lead somewhere, as texts. -/
def partsOf (ps : List (List Char)) : List String :=
  (ps.filter fun piece => !isVoid piece).map String.ofList

/-- The parts of a path that lead somewhere. -/
def parts (p : Path) : List String := partsOf (pieces p.text.toList)

/-! ## Joining -/

/-- The path that a text names from a directory: an absolute text stands alone, and any other
follows the directory after a separator, unless the directory is empty or ends in one. -/
def join (dir : Path) (text : String) : Path :=
  if (Path.mk text).isAbsolute then ⟨text⟩
  else
    match dir.text.toList.getLast? with
    | some c =>
      if c = separator then ⟨dir.text ++ text⟩
      else ⟨dir.text ++ String.singleton separator ++ text⟩
    | none => ⟨text⟩

/-- The path that parts lead to from a directory, one after the other. -/
def joinAll (dir : Path) (parts : List String) : Path := parts.foldl join dir

/-- The path with some text right after it. -/
def append (p : Path) (text : String) : Path := ⟨p.text ++ text⟩

/-! ## Ancestors -/

/-- The start of a path, which is never cut off: the separator of an absolute path, or the dot of a
path whose first part is a dot; with the rest. -/
def split (p : Path) : List Char × List Char :=
  match p.text.toList with
  | ['.'] => (['.'], [])
  | '.' :: '/' :: cs => (['.'], '/' :: cs)
  | '/' :: cs => (['/'], cs)
  | cs => ([], cs)

/-- Pieces, last first, without those at the end that add nothing. -/
def dropVoid (reversed : List (List Char)) : List (List Char) := reversed.dropWhile isVoid

/-- The directory that holds the place a path names. The root has none, and neither has the empty
path. -/
def parent? (p : Path) : Option Path :=
  let (start, body) := p.split
  -- The last piece that counts is cut off, and then what adds nothing before it
  match dropVoid (pieces body).reverse with
  | _ :: rest => some ⟨String.ofList (start ++ ofPieces (dropVoid rest).reverse)⟩
  | [] => if start = ['.'] then some ⟨""⟩ else none

/-- The path and the directories above it, nearest first, as far as the bound allows. -/
def ancestorsWithin : Nat → Path → List Path
  | 0, p => [p]
  | n + 1, p => p :: (p.parent?.map (ancestorsWithin n)).getD []

/-- The path and the directories above it, nearest first. Each is a shorter text than the one
before, so the length of the path bounds their number. -/
def ancestors (p : Path) : List Path := ancestorsWithin p.text.length p

end Path

end MapChain
