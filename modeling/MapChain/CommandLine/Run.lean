import MapChain.CommandLine.Arguments
import MapChain.Compiler.Worker
import MapChain.Config.Resolve
import MapChain.Downstream.Worker
import MapChain.Pipeline
import MapChain.Worker.Node

/-!
# Running the command line

A run resolves the configuration of the project, starts the two workers in the project's directory
and then prints a cache key or transforms one file. Whatever fails ends the run with nothing
printed.

All that a run depends on besides its arguments is in a `World`: the files, the environment, and
recordings of the processes that are started.
-/

namespace MapChain.CommandLine

/-! ## The world -/

/-- What a run depends on besides its arguments. -/
structure World where
  files : FileSystem
  /-- The location of the configuration that the environment gives. -/
  configLocation : Option String
  node : Node.Surroundings
  /-- The process that tells the version of node. -/
  version : Option Recording
  compiler : Option Recording
  transformer : Option Recording

/-- The two workers of a run. -/
structure Workers where
  compiler : WorkerSession
  transformer : TransformerWorker

/-! ## Errors -/

/-- Why a run failed. -/
inductive RunError where
  | badProjectRoot (text : String)
  | config (error : ConfigError)
  | worker (error : WorkerError)
  | downstream (error : DownstreamError)
  | noFile
  | unreadable (file : String)
  /-- The options in the arguments are no JSON object. -/
  | badOptions
  | transform (error : TransformError)
  | noCode
  /-- The positions of the result are in a tree, or it is passed through. -/
  | noMap

/-- The error in words. -/
def RunError.message : RunError → String
  | .badProjectRoot text => "invalid project root: " ++ text
  | .config e => e.message
  | .worker e => e.message
  | .downstream e => e.message
  | .noFile => "no input file"
  | .unreadable file => "failed to read " ++ file
  | .badOptions => "--options must be a JSON object"
  | .transform e => e.message
  | .noCode => "the upstream transformer returned no code"
  | .noMap => "no separate source map: positions live in the ast"

/-! ## Preparing -/

/-- The configuration of the project, for which the arguments may give a location. -/
def resolveConfig (w : World) (a : Arguments) (root : Path) :
    Except ConfigError Config.ResolvedConfig :=
  let resolver := Config.Resolver.ofEnvironment root w.configLocation
  Config.resolve w.files <| match a.config with
    | some text => resolver.withGiven ⟨text⟩
    | none => resolver

/-- A recording of a process in a directory; there is none if the directory is missing. -/
def runIn (fs : FileSystem) (dir : Path) (recording : Option Recording) : Option Recording :=
  if fs.isDirectory dir then recording else none

/-- Starts both workers, the compiler first. -/
def startWorkers (w : World) (root : Path) : Except RunError Workers :=
  match Node.find? w.files w.node (some root) with
  | none => .error (.worker .notFound)
  | some _ =>
    match WorkerSession.spawn (runIn w.files root w.compiler) with
    | .error e => .error (.worker e)
    | .ok compiler =>
      match TransformerWorker.spawn (runIn w.files root w.transformer) with
      | .error e => .error (.downstream e)
      | .ok transformer => .ok ⟨compiler, transformer⟩

/-- The configuration and the workers of a run. -/
def prepare (w : World) (a : Arguments) : Except RunError (Config.ResolvedConfig × Workers) :=
  match w.files.canonical? ⟨a.projectRoot⟩ with
  | none => .error (.badProjectRoot a.projectRoot)
  | some root =>
    match resolveConfig w a root with
    | .error e => .error (.config e)
    | .ok config => (startWorkers w root).map (config, ·)

/-! ## Transforming -/

/-- The options for the downstream transformer: those of the arguments, whether it is for
development, and the project's root unless they have one. -/
def transformOptions (a : Arguments) : Option Fields :=
  let given : Option Fields := match a.options with
    | none => some []
    | some text => (Json.ofText? text).bind Json.fields?
  given.map fun (fields : Fields) =>
    let fields : Fields := fields.insert "dev" (.bool a.dev)
    if fields.contains "projectRoot" then fields
    else fields.insert "projectRoot" (.string a.projectRoot)

/-- What is to be transformed. -/
def transformArgs (w : World) (a : Arguments) : Except RunError TransformArgs :=
  match a.file with
  | none => .error .noFile
  | some file =>
    match (w.files.read? ⟨file⟩).bind String.fromUTF8? with
    | none => .error (.unreadable file)
    | some source =>
      match transformOptions a with
      | none => .error .badOptions
      | some options => .ok ⟨source, file, .object options⟩

/-- The pipeline whose stages run in the two workers. -/
def pipelineOf (options : CompilerOptions) : Pipeline (StateM Workers) where
  options := options
  compiler input := do
    let workers ← get
    let (answer, compiler) := workers.compiler.compile input
    set { workers with compiler }
    return answer
  transformer input := do
    let workers ← get
    let (answer, transformer) := workers.transformer.transform input
    set { workers with transformer }
    return answer

/-! ## Printing -/

/-- What is printed of a result. -/
def present (form : OutputForm) (r : TransformResult) : Except RunError String :=
  match form with
  | .code =>
    match r.code? with
    | some code => .ok code
    | none => .error .noCode
  | .map =>
    match r.map with
    | some map => .ok (map.toJson.pretty ++ "\n")
    | none => .error .noMap
  | .json => .ok (r.toValue.pretty ++ "\n")

/-! ## Running -/

/-- Transforms the file of the arguments. -/
def transformFile (w : World) (a : Arguments) (options : CompilerOptions) (workers : Workers) :
    Except RunError String × Workers :=
  match transformArgs w a with
  | .error e => (.error e, workers)
  | .ok args =>
    match ((pipelineOf options).transform args).run workers with
    | (.error e, workers) => (.error (.transform e), workers)
    | (.ok result, workers) => (present a.output result, workers)

/-- What a run comes to. -/
structure RunOutcome where
  printed : Except RunError String
  /-- The requests that the compiler has taken. -/
  compilerRequests : List String
  /-- The requests that the transformer has taken. -/
  transformerRequests : List String

/-- Does what complete arguments ask for. -/
def run (w : World) (a : Arguments) : RunOutcome :=
  match prepare w a with
  | .error e => ⟨.error e, [], []⟩
  | .ok (config, workers) =>
    if a.printCacheKey then
      ⟨.ok (CacheKey.ofDocument workers.transformer.cacheKey config.documentText ++ "\n"), [], []⟩
    else
      let (printed, workers) := transformFile w a config.options workers
      ⟨printed, workers.compiler.sent, workers.transformer.session.sent⟩

/-! ## Exit -/

/-- The end of a program: its exit code and its output, with what the workers were asked. -/
structure ExitReport where
  code : Nat
  output : String
  errorText : String
  compilerRequests : List String
  transformerRequests : List String
  deriving DecidableEq, Repr

/-- Runs the command line on its arguments. Bad arguments end with 2 and any other failure with
1. -/
def execute (w : World) (arguments : List String) : ExitReport :=
  match read arguments with
  | .error e => ⟨2, "", e.message, [], []⟩
  | .ok .help => ⟨0, helpText, "", [], []⟩
  | .ok .version => ⟨0, versionText, "", [], []⟩
  | .ok (.run a) =>
    let outcome := run w a
    match outcome.printed with
    | .ok output => ⟨0, output, "", outcome.compilerRequests, outcome.transformerRequests⟩
    | .error e => ⟨1, "", e.message, outcome.compilerRequests, outcome.transformerRequests⟩

end MapChain.CommandLine
