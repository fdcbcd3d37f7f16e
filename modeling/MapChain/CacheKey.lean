import MapChain.Hash.Blake3

/-!
# Cache keys

A cache key names what a transform depends on besides the file: the downstream transformer, which
may have a key of its own, the version of this program and the configuration document. The three are
hashed with a NUL byte between them.
-/

namespace MapChain.CacheKey

/-- The program's name. -/
def programName : String := "ts-transformer"

/-- The program's version. -/
def programVersion : String := "0.9.5"

/-- What is hashed: an absent key of the downstream transformer counts as an empty one. -/
def preimage (downstreamKey : Option String) (document : String) : List UInt8 :=
  (downstreamKey.getD "").toUTF8.toList ++ 0 ::
    (programName ++ "@" ++ programVersion).toUTF8.toList ++ 0 :: document.toUTF8.toList

/-- The key in hexadecimal. -/
def ofDocument (downstreamKey : Option String) (document : String) : String :=
  Blake3.hexHash (preimage downstreamKey document)

end MapChain.CacheKey
