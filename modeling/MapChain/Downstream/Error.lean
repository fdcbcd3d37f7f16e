import MapChain.SourceMap.Error
import MapChain.Worker.Error

/-!
# Errors of the downstream stage

The downstream transformer can fail by itself, be of a kind that is not known, or return a map that
cannot be used.
-/

namespace MapChain

/-- Why the downstream stage failed. -/
inductive DownstreamError where
  | worker (error : WorkerError)
  /-- The transformer has an interface that is not known. -/
  | unsupportedApi (name : String)
  /-- A map document that cannot be decoded. -/
  | invalidMap (error : MapError)
  /-- A stream of tuples that cannot be read. -/
  | invalidTuples (error : Json.ShapeError)
  /-- A map that is neither of the two; the kind of the value is named. -/
  | unexpectedMap (kind : String)
  deriving DecidableEq, Repr

/-- The error in words. -/
def DownstreamError.message : DownstreamError → String
  | .worker e => e.message
  | .unsupportedApi name => "unsupported upstream transformer api: " ++ name
  | .invalidMap e => "invalid source map from upstream transformer: " ++ e.message
  | .invalidTuples e => "invalid mapping tuples from upstream transformer: " ++ e.message
  | .unexpectedMap kind => "unexpected `map` value from upstream transformer: " ++ kind

end MapChain
