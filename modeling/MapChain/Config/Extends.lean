import MapChain.Config.Error
import MapChain.Config.Merge
import MapChain.Files.FileSystem

/-!
# Chains of documents

A document may extend others, which may extend others again. What it extends is given by a path from
its directory, or by the name of a package, which is looked for in the package directories of its
own and of each higher directory.

Loading a document loads what it extends first, in order, and lays each over the ones before it and
the document over all. A document is marked while it is loaded, by a name that does not depend on
how its path is spelled, so a chain that leads back into itself is found; one that leads to a
document twice on different branches is no such chain. The mark is taken away when the document is
loaded, and stays after an error.
-/

namespace MapChain.Config

/-! ## Reading one document -/

/-- Reads the document of a path. -/
def readDocument (fs : FileSystem) (p : Path) : Except ConfigError Fields :=
  match fs.read? p with
  | none => .error (.notFound p)
  | some bytes =>
    match String.fromUTF8? bytes with
    | none => .error (.parse p .unreadable)
    | some text => (Lenient.read text).mapError fun fault => .parse p (.ofDocumentFault fault)

/-! ## What a document extends -/

/-- The file of a configuration where no other is named. -/
def fileName : String := "tsconfig.json"

/-- The directory that holds packages. -/
def packagesName : String := "node_modules"

/-- Whether a reference is a path rather than the name of a package. -/
def isPathReference (reference : String) : Bool :=
  ['.', '/'].isPrefixOf reference.toList || ['.', '.', '/'].isPrefixOf reference.toList ||
    (Path.mk reference).isAbsolute

/-- The path, or the path with an extension, whichever is a file. -/
def fileOrJson? (fs : FileSystem) (p : Path) : Option Path :=
  if fs.isFile p then some p
  else if fs.isFile (p.append ".json") then some (p.append ".json")
  else none

/-- The configuration that the manifest of a package names. -/
def manifestConfig? (fs : FileSystem) (package : Path) : Option Path :=
  match readDocument fs (package.join "package.json") with
  | .ok manifest =>
    match manifest.get? "tsconfig" with
    | some (.string text) =>
      if fs.isFile (package.join text) then some (package.join text) else none
    | _ => none
  | .error _ => none

/-- The configuration of a package: the one its manifest names, or the one at its top. -/
def packageConfig? (fs : FileSystem) (package : Path) : Option Path :=
  match manifestConfig? fs package with
  | some p => some p
  | none => if fs.isFile (package.join fileName) then some (package.join fileName) else none

/-- What the name of a package leads to in one directory. -/
def packageIn? (fs : FileSystem) (name : String) (dir : Path) : Option Path :=
  let package := (dir.join packagesName).join name
  match fileOrJson? fs package with
  | some p => some p
  | none => if fs.isDirectory package then packageConfig? fs package else none

/-- The document that a reference in a directory leads to. -/
def resolveReference (fs : FileSystem) (reference : String) (dir : Path) :
    Except ConfigError Path :=
  if isPathReference reference then
    match fileOrJson? fs (dir.join reference) with
    | some p => .ok p
    | none => .error (.notFound (dir.join reference))
  else
    match dir.ancestors.findSome? (packageIn? fs reference) with
    | some p => .ok p
    | none => .error (.notFound ((dir.join packagesName).join reference))

/-- The directory that references of a document start from. -/
def directoryOf (p : Path) : Path := p.parent?.getD ⟨"."⟩

/-- The member that tells what a document extends. -/
def extendsMember : String := "extends"

/-- What a document extends, in order, if it is given as one value or as a list. -/
def references? (document : Fields) : Option (List Json) :=
  match document.get? extendsMember with
  | none => some []
  | some (.string text) => some [.string text]
  | some (.array items) => some items
  | some _ => none

/-! ## Loading -/

/-- The name that marks a document while it is loaded: its path without `.` and `..`, or the path as
it is spelled where it leads nowhere. -/
def markOf (fs : FileSystem) (p : Path) : Path := (fs.canonical? p).getD p

/-- How loading ends: with a document or the first error, and with the marks that are set then. -/
abbrev Ending := Except ConfigError Fields × List Path

/-- Loads what a document extends, each in the given way, and lays each over what is merged so far.
-/
def loadBases (loadBase : List Path → Path → Option Ending) (fs : FileSystem)
    (marks : List Path) (p : Path) (references : List Json) (merged : Fields) : Option Ending :=
  match references with
  | [] => some (.ok merged, marks)
  | .string reference :: references =>
    match resolveReference fs reference (directoryOf p) with
    | .error e => some (.error e, marks)
    | .ok base => do
      match ← loadBase marks base with
      | (.error e, marks) => some (.error e, marks)
      | (.ok document, marks) =>
        loadBases loadBase fs marks p references (mergeDocuments merged document)
  | _ :: _ => some (.error (.parse p .badExtends), marks)

/-- Lays a document over what it extends, and takes its mark away. -/
def layOver (document : Fields) : Ending → Ending
  | (.error e, marks) => (.error e, marks)
  | (.ok base, marks) =>
    (.ok (mergeDocuments base (document.erase extendsMember)), marks.tail)

/-- Loads a document with all it extends, while others are being loaded. There is no ending where
documents that extend one another go deeper than the given depth. -/
def loadWithin (fs : FileSystem) (depth : Nat) (marks : List Path) (p : Path) : Option Ending :=
  match depth with
  | 0 => none
  | depth + 1 =>
    if markOf fs p ∈ marks then some (.error (.circularExtends p), marks)
    else
      match readDocument fs p with
      | .error e => some (.error e, markOf fs p :: marks)
      | .ok document =>
        match references? document with
        | none => some (.error (.parse p .badExtends), markOf fs p :: marks)
        | some references =>
          (loadBases (loadWithin fs depth) fs (markOf fs p :: marks) p references []).map
            (layOver document)

/-- The number of entries of a file system at locations that are not marked. -/
def remaining (fs : FileSystem) (marks : List Path) : Nat :=
  (fs.entries.filter fun e => !marks.contains (FileSystem.pathOf e.1)).length

/-- Loads a document with all it extends, while others are being loaded. Only a file that is not
marked can be read, so one more than the number of these is depth enough. -/
def loadFrom (fs : FileSystem) (marks : List Path) (p : Path) : Option Ending :=
  loadWithin fs (remaining fs marks + 1) marks p

end MapChain.Config
