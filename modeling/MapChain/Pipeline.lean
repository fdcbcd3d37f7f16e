import MapChain.Compiler.Compile
import MapChain.Compose.Chain

/-!
# The pipeline

A typed source goes through the compiler and then, as plain source, through the downstream
transformer; the positions of the two are composed. A file that is not typed goes to the downstream
transformer at once, and its result is returned as it is.

The compiler and the transformer are given as functions in a monad, which is where their processes,
or a record of their answers, live. The options of the compiler are fixed for all calls.
-/

namespace MapChain

/-! ## Arguments -/

/-- The arguments of one call. -/
structure TransformArgs where
  source : String
  fileName : String
  options : Json

namespace TransformArgs

/-- The options of a call that gives none. -/
def noOptions : Json := .object []

/-- Reads arguments in one of two conventions: an object with a source, a file name and perhaps
options, or these in an array. -/
def ofJson : Json.ShapeReader TransformArgs
  | .object members => do
    let source ← Json.Shape.required members "src" Json.Shape.string
    let fileName ← Json.Shape.required members "filename" Json.Shape.string
    let options ← Json.Shape.defaulted members "options" noOptions .ok
    return { source, fileName, options }
  | .array [source, fileName, options] => do
    return ⟨← Json.Shape.string source, ← Json.Shape.string fileName, options⟩
  | .array [source, fileName] => do
    return ⟨← Json.Shape.string source, ← Json.Shape.string fileName, noOptions⟩
  | _ => .error .mismatch

end TransformArgs

/-! ## Errors -/

/-- Why a transform failed. -/
inductive TransformError where
  | compile (error : CompileStageError)
  | downstream (error : DownstreamError)
  | arguments (error : Json.ShapeError)
  deriving DecidableEq, Repr

/-- The error in words: those of a stage are shown as they are. -/
def TransformError.message : TransformError → String
  | .compile e => e.message
  | .downstream e => e.message
  | .arguments e => "invalid transform arguments: " ++ e.message

/-! ## Transforming -/

/-- Compiler options with the two stages they are used for. -/
structure Pipeline (m : Type → Type) where
  options : CompilerOptions
  compiler : Compiler m
  transformer : Transformer m

namespace Pipeline

variable {m : Type → Type} [Monad m]

/-- Transforms a file that is not typed. -/
def passThrough (p : Pipeline m) (args : TransformArgs) :
    m (Except TransformError TransformResult) := do
  match ← p.transformer ⟨args.source, args.fileName, args.options⟩ with
  | .error e => return .error (.downstream e)
  | .ok result => return .ok (.passThrough result)

/-- Transforms a file that has been compiled. -/
def finish (p : Pipeline m) (args : TransformArgs) (compiled : CompiledModule) :
    m (Except TransformError TransformResult) := do
  match ← p.transformer ⟨compiled.text, args.fileName, args.options⟩ with
  | .error e => return .error (.downstream e)
  | .ok result =>
    match DownstreamShape.classify result with
    | .error e => return .error (.downstream e)
    | .ok shape => return .ok (compose compiled.map shape args.fileName args.source)

/-- Transforms one file. -/
def transform (p : Pipeline m) (args : TransformArgs) :
    m (Except TransformError TransformResult) := do
  if isTypedFile args.fileName then
    match ← compile p.compiler ⟨args.source, args.fileName, p.options⟩ with
    | .error e => return .error (.compile e)
    | .ok compiled => p.finish args compiled
  else p.passThrough args

end Pipeline

end MapChain
