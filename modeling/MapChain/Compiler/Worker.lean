import MapChain.Compiler.Compile
import MapChain.Worker.Session

/-!
# The compiler in a worker

The compiler of a project runs in a worker, which tells the compiler's version and takes a file with
its options in each request.
-/

namespace MapChain

/-- The version that the compiler tells. -/
def WorkerSession.compilerVersion (s : WorkerSession) : Option String := s.told? "version"

/-- Has a file compiled. -/
def WorkerSession.compile (s : WorkerSession) (input : CompilerInput) :
    Except WorkerError CompilerOutput × WorkerSession :=
  s.request input.toJson CompilerOutput.ofJson

end MapChain
