/-!
# Worker errors

The compiler and the downstream transformer run in worker processes under node. This is what can go
wrong with such a process, apart from what the code in it reports about its own work, which is
passed on in its own words.
-/

namespace MapChain

/-- Why a worker did not answer. -/
inductive WorkerError where
  /-- The process could not be started. -/
  | spawnFailed (detail : String)
  /-- The process ended; what it wrote to its error stream is shown. -/
  | processFailed (code : Int) (stderr : String)
  /-- There is no node to run it. -/
  | notFound
  /-- The worker's script could not be installed. -/
  | scriptInstall (detail : String)
  /-- The process broke the protocol, or its streams failed. -/
  | protocol (detail : String)
  /-- A line is not a reply of the right shape. -/
  | parse (detail : String)
  /-- The code in the worker reports a failure. -/
  | remote (message : String)
  deriving DecidableEq, Repr

namespace WorkerError

/-- The error in words. -/
def message : WorkerError → String
  | .spawnFailed detail => "failed to spawn node: " ++ detail
  | .processFailed code stderr => "node exited with code " ++ toString code ++ ": " ++ stderr
  | .notFound => "node binary not found (set NODE_BINARY or add node to PATH)"
  | .scriptInstall detail => "failed to install worker script: " ++ detail
  | .protocol detail => "node worker protocol error: " ++ detail
  | .parse detail => "failed to parse node worker reply: " ++ detail
  | .remote message => message

end WorkerError

end MapChain
