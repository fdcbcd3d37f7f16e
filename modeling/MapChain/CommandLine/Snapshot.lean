import MapChain.CommandLine.Run

/-!
# Snapshots

A snapshot is a JSON object that describes the world of a run: its files by absolute path, the
current directory, the environment, and a recording of each process that is started. A run on a
snapshot is the same whenever and wherever it is made.

Bytes are given as text or, where they are none, in hexadecimal. A path that ends in a separator is
that of a directory.
-/

namespace MapChain.CommandLine.Snapshot

open Json (Shaped)
open Json.Shape

/-! ## Bytes -/

/-- The value of a hexadecimal digit. -/
def hexDigit (c : Char) : Shaped Nat :=
  if c.isDigit then .ok (c.toNat - '0'.toNat)
  else if 'a' ≤ c ∧ c ≤ 'f' then .ok (c.toNat - 'a'.toNat + 10)
  else .error .mismatch

/-- The bytes of hexadecimal digits, two for each. -/
def hexBytes : List Char → Shaped (List UInt8)
  | [] => .ok []
  | [_] => .error .mismatch
  | a :: b :: cs => do
    let byte := UInt8.ofNat (16 * (← hexDigit a) + (← hexDigit b))
    return byte :: (← hexBytes cs)

/-- Reads bytes. -/
def bytes : Json.ShapeReader ByteArray
  | .string text => .ok text.toUTF8
  | v => do
    let digits ← required (← fields v) "hex" string
    return ⟨(← hexBytes digits.toList).toArray⟩

/-! ## Processes -/

/-- Reads how a process ends. -/
def status : Json.ShapeReader ExitStatus
  | .string text => if text = "signal" then .ok .signal else .error .mismatch
  | .number (.integer code _) => .ok (.ofInt code)
  | _ => .error .mismatch

/-- Reads the recording of a process. -/
def recording : Json.ShapeReader Recording := fun v => do
  let members ← fields v
  return {
    greeting := ← optional members "ready" bytes
    replies := ← defaulted members "replies" [] (list bytes)
    status := ← defaulted members "exit" (.code 0) status
    stderr := ← defaulted members "stderr" .empty bytes }

/-! ## Files -/

/-- Adds a file or a directory with the directories on the way to it. -/
def addEntry (fs : FileSystem) (path : Path) (contents : ByteArray) : Option FileSystem :=
  if path.text.toList.getLast? = some Path.separator then fs.makeDirectories? path
  else do
    let fs ← fs.makeDirectories? (path.parent?.getD ⟨"."⟩)
    fs.write? path contents

/-- Adds files by path. -/
def addEntries (fs : FileSystem) : Fields → Shaped FileSystem
  | [] => .ok fs
  | (path, v) :: entries => do
    let fs ← require (addEntry fs ⟨path⟩ (← bytes v))
    addEntries fs entries

/-- The file system in which a file may be executed. -/
def allow (fs : FileSystem) (path : Path) : FileSystem :=
  match fs.resolve? path with
  | some l =>
    match fs.contents? l with
    | some contents => fs.set l (.file contents true)
    | none => fs
  | none => fs

/-- Reads a file system. -/
def fileSystem (members : Fields) : Shaped FileSystem := do
  let fs ← addEntries .empty (← defaulted members "files" [] fields)
  let executables ← defaulted members "executable" [] (list string)
  let fs := executables.foldl (fun fs path => allow fs ⟨path⟩) fs
  let current ← defaulted members "current" "/" string
  return { fs with current := ← require (fs.resolve? ⟨current⟩) }

/-! ## Worlds -/

/-- Reads a world. -/
def world : Json.ShapeReader World := fun v => do
  let members ← fields v
  let environment ← defaulted members "environment" [] fields
  return {
    files := ← fileSystem members
    configLocation := ← optional environment Config.environmentVariable string
    node := {
      binary := ← optional environment "NODE_BINARY" string
      searchPath := ← defaulted environment "PATH" "" string
      home := ← optional environment "HOME" string }
    version := ← optional members "version" recording
    compiler := ← optional members "compiler" recording
    transformer := ← optional members "transformer" recording }

/-- Reads the world that a text describes. -/
def ofText (text : String) : Shaped World :=
  match Json.ofText? text with
  | some v => world v
  | none => .error .mismatch

end MapChain.CommandLine.Snapshot
