import MapChain.Text.Placeholder
import MapChain.Worker.Error

/-!
# Worker processes

A worker process is seen through its pipes. It prints lines, takes requests as long as it runs, and
ends with a status and what it wrote to its error stream. What it prints is fixed by its recording,
in which each request is followed by the output that answers it; a request that has no answer in the
recording is the last one the process takes.

A line ends at a line feed, and a carriage return before it belongs to the line end. What follows
the last line feed is a line too, unless it is empty.
-/

namespace MapChain

/-! ## Bytes -/

/-- The byte that ends a line. -/
def lineFeed : UInt8 := 10

/-- The byte that may come before the one that ends a line. -/
def carriageReturn : UInt8 := 13

/-- A line, last byte first, without the carriage return at its end. -/
def closeLine : List UInt8 → List UInt8
  | b :: bytes => if b = carriageReturn then bytes.reverse else (b :: bytes).reverse
  | [] => []

/-- The lines of some output; the bytes of the current line are kept last first. -/
def linesFrom (current : List UInt8) : List UInt8 → List (List UInt8)
  | [] => if current.isEmpty then [] else [current.reverse]
  | b :: bytes =>
    if b = lineFeed then closeLine current :: linesFrom [] bytes else linesFrom (b :: current) bytes

/-- The lines of some output. -/
def outputLines (bytes : ByteArray) : List ByteArray :=
  (linesFrom [] bytes.data.toList).map fun line => ⟨line.toArray⟩

/-! ## Ends -/

/-- How a process ends. -/
inductive ExitStatus where
  | code (value : Nat)
  /-- It is killed by a signal. -/
  | signal
  deriving DecidableEq, Repr

/-- The status of a process that asks to end with a code, of which one byte is kept. -/
def ExitStatus.ofInt (code : Int) : ExitStatus := .code (code % 256).toNat

/-- The code of a status; a process that is killed has none, and `-1` stands for it. -/
def ExitStatus.value : ExitStatus → Int
  | .code value => value
  | .signal => -1

/-! ## Recordings -/

/-- What a process does. -/
structure Recording where
  /-- What it prints before any request; a process without this ends at once. -/
  greeting : Option ByteArray
  /-- What it prints after each request. -/
  replies : List ByteArray
  status : ExitStatus
  stderr : ByteArray

/-! ## Processes -/

/-- A process with what is still to come from it. -/
structure WorkerProcess where
  /-- The lines that are not read yet. -/
  pending : List ByteArray
  /-- How many more requests it takes before it ends. -/
  appetite : Nat
  status : ExitStatus
  /-- What its error stream holds, until that is read. -/
  stderr : ByteArray
  /-- The requests it has taken. -/
  received : List String

namespace WorkerProcess

/-- The process that a recording starts. -/
def start (r : Recording) : WorkerProcess :=
  match r.greeting with
  | none => ⟨[], 0, r.status, r.stderr, []⟩
  | some greeting =>
    ⟨outputLines (r.replies.foldl (· ++ ·) greeting), r.replies.length + 1, r.status, r.stderr, []⟩

/-- Writes a request; it fails when the process has ended. -/
def write? (p : WorkerProcess) (line : String) : Option WorkerProcess :=
  match p.appetite with
  | 0 => none
  | n + 1 => some { p with appetite := n, received := p.received ++ [line] }

/-- What a process wrote to its error stream, if that is text. -/
def stderrText (p : WorkerProcess) : String := (String.fromUTF8? p.stderr).getD ""

/-- Reads a line. At the end of the output the process is done for, and its error stream is read; it
can be read only once. -/
def readLine (p : WorkerProcess) : Except WorkerError String × WorkerProcess :=
  match p.pending with
  | [] => (.error (.processFailed p.status.value p.stderrText), { p with stderr := .empty })
  | line :: pending =>
    match String.fromUTF8? line with
    | some text => (.ok text, { p with pending })
    | none =>
      let fault := "failed to read node output: " ++ Placeholder.system
      (.error (.protocol fault), { p with pending })

end WorkerProcess

end MapChain
