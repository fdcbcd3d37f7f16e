import MapChain.Config.Load
import MapChain.Config.Options

/-!
# Resolving the configuration

The configuration of a project is the document of its directory, or of the nearest directory above
that has one. A location may be given instead, in the environment or by the caller, who counts for
more; if there is no file at it, notices are written and the search goes on as if none were given.

The document is loaded with all it extends. The forced options are set in the resolved options only:
the document keeps what was written.
-/

namespace MapChain.Config

/-! ## Where to look -/

/-- Who gave a location. -/
inductive LocationSource where
  | environment
  | caller
  deriving DecidableEq, Repr

/-- A location that is given. -/
structure GivenLocation where
  path : Path
  source : LocationSource
  deriving DecidableEq, Repr

/-- The variable of the environment that gives a location. -/
def environmentVariable : String := "TSCONFIG_PATH"

/-- A directory to search upwards from, and perhaps a location that is tried before. -/
structure Resolver where
  start : Path
  given : Option GivenLocation
  deriving DecidableEq, Repr

namespace Resolver

/-- The resolver of a directory, with the location that the environment gives; an empty one is
none. -/
def ofEnvironment (start : Path) : Option String → Resolver
  | none => ⟨start, none⟩
  | some text => ⟨start, if text = "" then none else some ⟨⟨text⟩, .environment⟩⟩

/-- The resolver with a location that the caller gives. -/
def withGiven (r : Resolver) (path : Path) : Resolver := { r with given := some ⟨path, .caller⟩ }

end Resolver

/-! ## Finding the document -/

/-- The file at the given location, if there is one. -/
def givenFile? (fs : FileSystem) (r : Resolver) : Option Path :=
  (r.given.map fun g => fs.absolute g.path).filter fs.isFile

/-- The document of a directory or of the nearest one above it. -/
def discover (fs : FileSystem) (start : Path) : Except ConfigError Path :=
  match (start.ancestors.map (·.join fileName)).find? fs.isFile with
  | some p => .ok p
  | none => .error (.notFound (start.join fileName))

/-- The document that resolving starts from. -/
def locate (fs : FileSystem) (r : Resolver) : Except ConfigError Path :=
  match givenFile? fs r with
  | some p => .ok p
  | none => discover fs (fs.absolute r.start)

/-! ## Notices -/

/-- What is written when there is no file at a given location. -/
def GivenLocation.notices (fs : FileSystem) (g : GivenLocation) : List String :=
  let resolved := "resolved = " ++ (fs.absolute g.path).text
  let next := "looking in project root directory"
  match g.source with
  | .environment =>
    ["tsconfig file specified by " ++ environmentVariable ++ " environment variable was not found",
      environmentVariable ++ " = " ++ g.path.text, resolved, next]
  | .caller =>
    ["explicitly specified tsconfig file was not found", "requested = " ++ g.path.text, resolved,
      next]

/-- What is written when the given location is passed over. -/
def locationNotices (fs : FileSystem) (r : Resolver) : List String :=
  match r.given, givenFile? fs r with
  | some g, none => g.notices fs
  | _, _ => []

/-! ## Resolving -/

/-- The configuration of a project. -/
structure ResolvedConfig where
  /-- The document that resolving started from. -/
  path : Path
  /-- The merged document. -/
  document : Fields
  /-- The options in it, with the forced ones. -/
  options : CompilerOptions
  /-- What is odd about the options as they were written. -/
  advisories : List Advisory

/-- The merged document as text. -/
def ResolvedConfig.documentText (c : ResolvedConfig) : String := (Json.object c.document).compact

/-- The options that a document is written with. -/
def optionsOf? (document : Fields) : Option CompilerOptions :=
  match document.get? optionsMember with
  | none => some .empty
  | some (.object members) => some (.ofFields members)
  | some _ => none

/-- The configuration that a merged document amounts to. -/
def ofDocument (path : Path) (document : Fields) : Except ConfigError ResolvedConfig :=
  match optionsOf? document with
  | none => .error (.parse path .badOptions)
  | some options => .ok ⟨path, document, options.forced, options.advisories⟩

/-- Resolves the configuration of a project. -/
def resolve (fs : FileSystem) (r : Resolver) : Except ConfigError ResolvedConfig :=
  match locate fs r with
  | .error e => .error e
  | .ok path =>
    match load fs path with
    | .error e => .error e
    | .ok document => ofDocument path document

/-- All that is written while the configuration of a project is resolved. -/
def notices (fs : FileSystem) (r : Resolver) : List String :=
  locationNotices fs r ++
    match resolve fs r with
    | .ok c => c.advisories.map Advisory.message
    | .error _ => []

end MapChain.Config
