import MapChain.Files.FileSystem
import MapChain.Text.Lossy
import MapChain.Text.Whitespace
import MapChain.Worker.Process

/-!
# Finding node

Workers run under node. The one that the environment names is taken if it is a file; next comes the
one that is installed with the project, and last the first one on the search path that may be
executed. An entry of the search path may begin from the home directory, and what is found on it has
an absolute path.
-/

namespace MapChain.Node

/-! ## Search -/

/-- What the environment says about node. -/
structure Surroundings where
  /-- The node that is named. -/
  binary : Option String
  /-- The directories to search, with colons between them. -/
  searchPath : String
  /-- The home directory; an empty one is none. -/
  home : Option String

/-- The name of the executable. -/
def executableName : String := "node"

/-- Where a project keeps its executables. -/
def projectBinaries : String := "node_modules/.bin"

/-- The named node. -/
def named? (fs : FileSystem) (env : Surroundings) : Option Path :=
  (env.binary.map Path.mk).filter fs.isFile

/-- The node of a project. -/
def installed? (fs : FileSystem) (project : Option Path) : Option Path :=
  (project.map fun p => (p.join projectBinaries).join executableName).filter fs.isFile

/-- The entries of a search path. -/
def searchEntries (searchPath : String) : List (List Char) :=
  searchPath.toList.splitOnP (· == ':')

/-- The first piece of an entry that begins from the home directory. -/
def homePiece : List Char := ['~']

/-- The directory that an entry names, with the home directory in place of the piece that stands for
it. -/
def expandHome (home : Option String) (entry : List Char) : Path :=
  match Path.pieces entry, home.filter (· != "") with
  | piece :: rest, some h =>
    if piece = homePiece then (Path.mk h).joinAll (Path.partsOf rest) else ⟨String.ofList entry⟩
  | _, _ => ⟨String.ofList entry⟩

/-- The absolute path of a directory to search: a relative one follows the current directory, part
by part. -/
def anchor (fs : FileSystem) (dir : Path) : Path :=
  if dir.isAbsolute then dir else (FileSystem.pathOf fs.current).joinAll dir.parts

/-- The directories to search. -/
def searchDirectories (fs : FileSystem) (env : Surroundings) : List Path :=
  (searchEntries env.searchPath).map fun entry => anchor fs (expandHome env.home entry)

/-- The node on the search path. -/
def onSearchPath? (fs : FileSystem) (env : Surroundings) : Option Path :=
  ((searchDirectories fs env).map (·.join executableName)).find? fs.isExecutable

/-- The node that workers run under. -/
def find? (fs : FileSystem) (env : Surroundings) (project : Option Path) : Option Path :=
  ((named? fs env).orElse fun _ => installed? fs project).orElse fun _ => onSearchPath? fs env

/-! ## Version -/

/-- The version that a node prints, from the recording of a run that asks for it. -/
def version : Option Recording → Except WorkerError String
  | none => .error (.spawnFailed Placeholder.system)
  | some r =>
    if r.status = .code 0 then
      .ok (String.ofList (Text.trimBlank (Text.lossy (r.greeting.getD .empty)).toList))
    else .error (.processFailed r.status.value (Text.lossy r.stderr))

end MapChain.Node
