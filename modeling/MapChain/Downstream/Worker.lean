import MapChain.Downstream.Result
import MapChain.Worker.Session

/-!
# The downstream transformer in a worker

Downstream transformers have come with four interfaces. The worker tells which of them it has bound,
once and for all; it may also tell a cache key of the transformer. A worker with another interface
is refused.
-/

namespace MapChain

/-! ## Interfaces -/

/-- The interface of a transformer. -/
inductive TransformerApi where
  | babelTransformer
  | reactNativeTransformer
  | metroBundler
  | packager
  deriving DecidableEq, Repr

namespace TransformerApi

/-- The name a worker tells it by. -/
def name : TransformerApi → String
  | .babelTransformer => "babel-transformer"
  | .reactNativeTransformer => "react-native-transformer"
  | .metroBundler => "metro-bundler"
  | .packager => "packager"

/-- All interfaces. -/
def all : List TransformerApi :=
  [.babelTransformer, .reactNativeTransformer, .metroBundler, .packager]

/-- The interface of a name. -/
def ofName? (name : String) : Option TransformerApi := all.find? (·.name == name)

end TransformerApi

/-! ## The worker -/

/-- A worker with a transformer that it has bound. -/
structure TransformerWorker where
  session : WorkerSession
  api : TransformerApi
  cacheKey : Option String

namespace TransformerWorker

/-- The transformer of a session. A worker that tells no interface tells one without a name. -/
def ofSession (s : WorkerSession) : Except DownstreamError TransformerWorker :=
  let name := (s.told? "api").getD ""
  match TransformerApi.ofName? name with
  | some api => .ok ⟨s, api, s.told? "cacheKey"⟩
  | none => .error (.unsupportedApi name)

/-- Starts a worker. -/
def spawn (recording : Option Recording) : Except DownstreamError TransformerWorker :=
  match WorkerSession.spawn recording with
  | .ok s => ofSession s
  | .error e => .error (.worker e)

/-- Reads the result in a reply. -/
def readResult : Json.ShapeReader Fields := fun v => do
  Json.Shape.required (← Json.Shape.record ["result"] v) "result" Json.Shape.fields

/-- Has a file transformed. -/
def transform (w : TransformerWorker) (input : DownstreamInput) :
    Except DownstreamError Fields × TransformerWorker :=
  let (result, session) := w.session.request input.toJson readResult
  (result.mapError .worker, { w with session })

end TransformerWorker

end MapChain
