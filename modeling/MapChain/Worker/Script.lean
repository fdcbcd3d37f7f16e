import MapChain.CacheKey
import MapChain.Files.FileSystem
import MapChain.Hash.Blake3
import MapChain.Text.Placeholder
import MapChain.Worker.Error

/-!
# Worker scripts

The scripts that workers run are kept in the cache directory of the user. Installing a script writes
it only if the digest of the file differs, and while it is written a lock file of its own is held,
which stays behind and is empty.
-/

namespace MapChain.Script

/-! ## The cache directory -/

/-- The home directory: the one that the environment names, unless that is empty, or the one of the
user's account. -/
def homeDirectory? (home account : Option String) : Option Path :=
  ((home.filter (· != "")).orElse fun _ => account).map Path.mk

/-- The cache directory of the program: in the user's cache directory, which an absolute path in the
environment may name, and which is in the home directory otherwise. -/
def cacheDirectory? (cacheHome home account : Option String) : Option Path :=
  let base := ((cacheHome.map Path.mk).filter Path.isAbsolute).orElse fun _ =>
    (homeDirectory? home account).map (·.join ".cache")
  base.map (·.join CacheKey.programName)

/-! ## Installing -/

/-- What contents are told apart by. -/
def digest (contents : ByteArray) : List UInt8 := Blake3.hash contents.data.toList

/-- Whether a file holds a script, by its digest. -/
def holds (fs : FileSystem) (p : Path) (source : String) : Bool :=
  match fs.read? p with
  | some contents => digest contents == digest source.toUTF8
  | none => false

/-- The failure of an installation, in words, at a path. -/
def fault (doing : String) (p : Option Path) : WorkerError :=
  .scriptInstall ("failed to " ++ doing ++ (p.map fun p => " " ++ p.text).getD "" ++ ": " ++
    Placeholder.system)

/-- The file that is locked while a script is written. -/
def lockPath (dir : Path) (name : String) : Path := dir.join (name ++ ".lock")

/-- Writes a script under its lock. -/
def writeLocked (fs : FileSystem) (dir : Path) (name source : String) :
    Except WorkerError Path × FileSystem :=
  match fs.touch? (lockPath dir name) with
  | none => (.error (fault "open" (lockPath dir name)), fs)
  | some fs =>
    if holds fs (dir.join name) source then (.ok (dir.join name), fs)
    else match fs.write? (dir.join name) source.toUTF8 with
      | none => (.error (fault "write" (dir.join name)), fs)
      | some fs => (.ok (dir.join name), fs)

/-- Installs a script and tells its path. -/
def ensure (fs : FileSystem) (dir : Option Path) (name source : String) :
    Except WorkerError Path × FileSystem :=
  match dir with
  | none => (.error (.scriptInstall "could not determine cache directory"), fs)
  | some dir =>
    match fs.makeDirectories? dir with
    | none => (.error (fault "create cache dir" none), fs)
    | some fs =>
      if holds fs (dir.join name) source then (.ok (dir.join name), fs)
      else writeLocked fs dir name source

end MapChain.Script
