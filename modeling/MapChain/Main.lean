import MapChain.CommandLine.Snapshot

/-!
# The program

Runs the command line in the world that a snapshot on standard input describes. Output goes to
standard output, what is wrong to standard error, and the exit code tells which it was.
-/

open MapChain

/-- Runs the command line. -/
def main (arguments : List String) : IO UInt32 := do
  let input ← (← IO.getStdin).readToEnd
  match CommandLine.Snapshot.ofText input with
  | .error _ =>
    IO.eprintln "standard input holds no snapshot"
    return 1
  | .ok world =>
    let report := CommandLine.execute world arguments
    IO.print report.output
    unless report.errorText.isEmpty do IO.eprintln report.errorText
    return UInt32.ofNat report.code
