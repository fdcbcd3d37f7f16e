import MapChain.Json.Shape
import MapChain.SourceMap.Vlq

/-!
# Source map errors

What can be wrong with a source map: its JSON, its version, its mapping text, or a segment that
points beyond the end of a table.
-/

namespace MapChain

/-- Why a source map cannot be used. -/
inductive MapError where
  /-- The document is not JSON of the right shape. -/
  | invalidJson
  | unsupportedVersion (version : UInt32)
  /-- The mapping text is malformed at a byte offset. -/
  | invalidMappings (offset : Nat) (fault : MappingFault)
  | sourceOutOfRange (index : UInt32)
  | nameOutOfRange (index : UInt32)
  deriving DecidableEq, Repr

/-- The error in words. -/
def MapError.message : MapError → String
  | .invalidJson => "invalid source map JSON: " ++ Placeholder.json
  | .unsupportedVersion v => "unsupported source map version: " ++ toString v.toNat
  | .invalidMappings offset fault =>
    "invalid VLQ mapping data at byte " ++ toString offset ++ ": " ++ fault.message
  | .sourceOutOfRange i => "mapping references unknown source index " ++ toString i.toNat
  | .nameOutOfRange i => "mapping references unknown name index " ++ toString i.toNat

end MapChain
