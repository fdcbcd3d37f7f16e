import MapChain.Association
import MapChain.Files.Path

/-!
# File systems

A finite file system without links. What it holds is listed by location, which is the names on the
way from the root, and one directory is the current one, from which relative paths lead.

Paths can be too long: such a path cannot be looked up, although what it leads to may exist and have
a canonical path.

A path is looked up piece by piece. Each piece needs a directory to start from, even one that leads
nowhere, so that `file/.` and `file/` lead to nothing, and `..` leads up only from a directory that
exists.
-/

namespace MapChain

/-! ## What a file system holds -/

/-- The names on the way from the root. -/
abbrev Location := List String

/-- What is at a location. -/
inductive FileEntry where
  | directory
  | file (contents : ByteArray) (executable : Bool)

/-- Files and directories, and a current directory. The root is a directory even if it is not
listed. -/
structure FileSystem where
  entries : List (Location × FileEntry)
  current : Location
  /-- The number of bytes from which a path is too long, if there is one. -/
  pathLimit : Option Nat

namespace FileSystem

/-- The number of bytes from which paths are commonly too long. -/
def commonPathLimit : Nat := 4096

/-- The file system that holds nothing. -/
def empty : FileSystem := ⟨[], [], some commonPathLimit⟩

/-- What is at a location, if anything is. -/
def lookup? (fs : FileSystem) (l : Location) : Option FileEntry :=
  if l = [] then some .directory else fs.entries.lookup l

/-- Whether a directory is at a location. -/
def isDirectoryAt (fs : FileSystem) (l : Location) : Bool :=
  match fs.lookup? l with
  | some .directory => true
  | _ => false

/-- The contents of the file at a location. -/
def contents? (fs : FileSystem) (l : Location) : Option ByteArray :=
  match fs.lookup? l with
  | some (.file contents _) => some contents
  | _ => none

/-- Puts an entry at a location, in place of what is there. -/
def set (fs : FileSystem) (l : Location) (e : FileEntry) : FileSystem :=
  { fs with entries := (l, e) :: fs.entries.filter (·.1 != l) }

/-- Putting an entry somewhere changes what is there and nowhere else. -/
theorem lookup?_set (fs : FileSystem) {l : Location} (hl : l ≠ []) (e : FileEntry) (m : Location) :
    (fs.set l e).lookup? m = if m = l then some e else fs.lookup? m := by
  unfold lookup? set
  by_cases hm : m = l
  · subst hm
    simp [hl]
  · simp [hm, Association.lookup_cons, Association.lookup_filter]

/-- The names of what is in the directory at a location. -/
def namesAt (fs : FileSystem) (l : Location) : List String :=
  fs.entries.filterMap fun (place, _) => if place.dropLast = l then place.getLast? else none

/-! ## Looking up -/

/-- Where one piece of a path leads from a location. -/
def step? (fs : FileSystem) (l : Location) (piece : String) : Option Location :=
  if fs.isDirectoryAt l then
    if piece = "" ∨ piece = "." then some l
    else if piece = ".." then some l.dropLast
    else if (fs.lookup? (l ++ [piece])).isSome then some (l ++ [piece])
    else none
  else none

/-- Where pieces lead from a location. -/
def walk? (fs : FileSystem) : Location → List String → Option Location
  | l, [] => some l
  | l, piece :: pieces =>
    match fs.step? l piece with
    | some next => fs.walk? next pieces
    | none => none

/-- Where the pieces of a path start from. -/
def origin (fs : FileSystem) (p : Path) : Location := if p.isAbsolute then [] else fs.current

/-- The pieces of a path. -/
def route (p : Path) : List String := (Path.pieces p.text.toList).map String.ofList

/-- Whether a path is not too long. -/
def fits (fs : FileSystem) (p : Path) : Bool :=
  match fs.pathLimit with
  | none => true
  | some limit => p.text.utf8ByteSize < limit

/-- Where a path leads, however long it is. The empty path leads nowhere. -/
def destination? (fs : FileSystem) (p : Path) : Option Location :=
  if p.text = "" then none else fs.walk? (fs.origin p) (route p)

/-- What a path names. A path that is too long names nothing. -/
def resolve? (fs : FileSystem) (p : Path) : Option Location :=
  if fs.fits p then fs.destination? p else none

/-- Whether a path names a file. -/
def isFile (fs : FileSystem) (p : Path) : Bool :=
  ((fs.resolve? p).bind fs.contents?).isSome

/-- Whether a path names a file that may be executed. -/
def isExecutable (fs : FileSystem) (p : Path) : Bool :=
  match (fs.resolve? p).bind fs.lookup? with
  | some (.file _ executable) => executable
  | _ => false

/-- Whether a path names a directory. -/
def isDirectory (fs : FileSystem) (p : Path) : Bool :=
  match fs.resolve? p with
  | some l => fs.isDirectoryAt l
  | none => false

/-- The contents of the file that a path names. -/
def read? (fs : FileSystem) (p : Path) : Option ByteArray := (fs.resolve? p).bind fs.contents?

/-! ## Paths of locations -/

/-- The absolute path of a location, without `.` and `..`. -/
def pathOf (l : Location) : Path :=
  ⟨String.singleton Path.separator ++ (String.singleton Path.separator).intercalate l⟩

/-- The path without `.` and `..` to where a path leads. -/
def canonical? (fs : FileSystem) (p : Path) : Option Path := (fs.destination? p).map pathOf

/-- The path from the root: a relative path follows the current directory. -/
def absolute (fs : FileSystem) (p : Path) : Path :=
  if p.isAbsolute then p else (pathOf fs.current).join p.text

/-! ## Writing -/

/-- The most bytes in a name. -/
def nameLimit : Nat := 255

/-- Whether something new may have this name. -/
def isName (piece : String) : Bool :=
  piece != "" && piece != "." && piece != ".." && piece.utf8ByteSize ≤ nameLimit &&
    !piece.toList.contains '\x00'

/-- Where a new file of this path would be: in a directory that exists, under a name that may be
given. -/
def place? (fs : FileSystem) (p : Path) : Option Location :=
  if fs.fits p then
    match fs.walk? (fs.origin p) (route p).dropLast, (route p).getLast? with
    | some l, some name => if fs.isDirectoryAt l && isName name then some (l ++ [name]) else none
    | _, _ => none
  else none

/-- Opens a file for writing without changing what is in it; a missing file is made, and is
empty. -/
def touch? (fs : FileSystem) (p : Path) : Option FileSystem :=
  match fs.resolve? p with
  | some l => if (fs.contents? l).isSome then some fs else none
  | none => (fs.place? p).map fun l => fs.set l (.file .empty false)

/-- Writes a file, which is made if it is missing and may be executed if it could be before. -/
def write? (fs : FileSystem) (p : Path) (contents : ByteArray) : Option FileSystem :=
  match fs.resolve? p with
  | some l =>
    match fs.lookup? l with
    | some (.file _ executable) => some (fs.set l (.file contents executable))
    | _ => none
  | none => (fs.place? p).map fun l => fs.set l (.file contents false)

/-- Follows pieces from a location and makes the directories that are missing. -/
def makeFrom? : FileSystem → Location → List String → Option FileSystem
  | fs, l, [] => if fs.isDirectoryAt l then some fs else none
  | fs, l, piece :: pieces =>
    match fs.step? l piece with
    | some next => makeFrom? fs next pieces
    | none =>
      if fs.isDirectoryAt l && isName piece then
        makeFrom? (fs.set (l ++ [piece]) .directory) (l ++ [piece]) pieces
      else none

/-- Makes a directory and those on the way to it, as far as they are missing. -/
def makeDirectories? (fs : FileSystem) (p : Path) : Option FileSystem :=
  if fs.fits p then fs.makeFrom? (fs.origin p) (route p) else none

end FileSystem

end MapChain
