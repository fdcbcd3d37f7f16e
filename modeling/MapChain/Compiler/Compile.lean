import MapChain.Compiler.CompileError
import MapChain.Config.Options
import MapChain.SourceMap.Lookup
import MapChain.Worker.Error

/-!
# The compile stage

The compiler turns a typed source into a plain one and reports diagnostics about it. The first
diagnostic that is an error fails the compilation, whatever else was reported or written. Without
one the compiler's source map is decoded, and all diagnostics are kept.
-/

namespace MapChain

/-! ## The compiler's side -/

/-- What the compiler is asked to compile. -/
structure CompilerInput where
  source : String
  fileName : String
  options : CompilerOptions

/-- The request in the compiler's terms. -/
def CompilerInput.toJson (i : CompilerInput) : Json :=
  .object [("source", .string i.source), ("fileName", .string i.fileName),
    ("compilerOptions", i.options.toJson)]

/-- What the compiler answers. -/
structure CompilerOutput where
  text : String
  mapText : Option String
  diagnostics : List Diagnostic

namespace CompilerOutput

/-- The members in the order of their declaration. -/
def memberNames : List String := ["outputText", "sourceMapText", "diagnostics"]

/-- Reads an answer. -/
def ofJson (v : Json) : Json.Shaped CompilerOutput := do
  let fields ← Json.Shape.record memberNames v
  let text ← Json.Shape.required fields "outputText" Json.Shape.string
  let mapText ← Json.Shape.optional fields "sourceMapText" Json.Shape.string
  let diagnostics ← Json.Shape.defaulted fields "diagnostics" [] (Json.Shape.list Diagnostic.ofJson)
  return { text, mapText, diagnostics }

end CompilerOutput

/-! ## The stage -/

/-- Why a file was not compiled. -/
inductive CompileStageError where
  | compile (error : CompileError)
  | worker (error : WorkerError)
  | missingMap (file : String)
  | invalidMap (error : MapError)
  deriving DecidableEq, Repr

/-- The error in words. -/
def CompileStageError.message : CompileStageError → String
  | .compile e => e.display
  | .worker e => e.message
  | .missingMap file => "compiler produced no source map for " ++ file
  | .invalidMap e => "invalid source map from compiler: " ++ e.message

/-- A worker that fails, fails the stage. -/
instance {α : Type} : Coe (Except WorkerError α) (Except CompileStageError α) :=
  ⟨Except.mapError .worker⟩

/-- A compiled file. -/
structure CompiledModule where
  text : String
  /-- Leads from the compiled text back to the source. -/
  map : SourceMap
  diagnostics : List Diagnostic

/-- The extensions of the files that are compiled. -/
def typedExtensions : List String := [".ts", ".tsx"]

/-- Whether a file is compiled; the others go downstream as they are. -/
def isTypedFile (name : String) : Bool :=
  typedExtensions.any fun e => e.toList.isSuffixOf name.toList

/-- What an answer of the compiler about a source amounts to. -/
def CompiledModule.ofOutput (source fileName : String) (output : CompilerOutput) :
    Except CompileStageError CompiledModule :=
  match output.diagnostics.find? (·.isError) with
  | some d => .error (.compile (CompileError.ofDiagnostic d source))
  | none =>
    match output.mapText with
    | none => .error (.missingMap fileName)
    | some mapText =>
      match SourceMap.ofText mapText with
      | .error e => .error (.invalidMap e)
      | .ok map => .ok ⟨output.text, map, output.diagnostics⟩

/-- A compiler that works in a monad `m`. It may fail in any way that the stage can. -/
abbrev Compiler (m : Type → Type) := CompilerInput → m (Except CompileStageError CompilerOutput)

/-- Compiles one file. -/
def compile {m : Type → Type} [Monad m] (compiler : Compiler m) (input : CompilerInput) :
    m (Except CompileStageError CompiledModule) := do
  match ← compiler input with
  | .error e => return .error e
  | .ok output => return CompiledModule.ofOutput input.source input.fileName output

end MapChain
