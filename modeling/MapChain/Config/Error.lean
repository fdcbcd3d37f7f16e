import MapChain.Config.Lenient
import MapChain.Files.Path
import MapChain.Text.Placeholder

/-!
# Configuration errors

A configuration document may be missing, unreadable or of the wrong shape, and a chain of documents
may lead back into itself. Each error names the path that led to it, as it was spelled.
-/

namespace MapChain

/-! ## Kinds of values -/

/-- What a value is called in a message. -/
def Json.kindText : Json → String
  | .null => "null"
  | .bool _ => "a boolean"
  | .number _ => "a number"
  | .string _ => "a string"
  | .array _ => "an array"
  | .object _ => "an object"

/-! ## Faults of one document -/

/-- What is wrong with a document. -/
inductive ConfigFault where
  /-- It could not be read as text. -/
  | unreadable
  /-- It is no lenient JSON. -/
  | malformed
  /-- It is no object; what it is instead is told. -/
  | notObject (kind : String)
  /-- What it extends is neither a text nor a list of texts. -/
  | badExtends
  /-- Its compiler options are no object. -/
  | badOptions
  deriving DecidableEq, Repr

namespace ConfigFault

/-- The fault in words. -/
def message : ConfigFault → String
  | .unreadable => Placeholder.system
  | .malformed => Placeholder.json
  | .notObject kind => "expected an object, found " ++ kind
  | .badExtends => "`extends` must be a string or an array of strings"
  | .badOptions => "`compilerOptions` must be an object"

/-- The fault of a text that is no document. -/
def ofDocumentFault : Lenient.DocumentFault → ConfigFault
  | .malformed => .malformed
  | .notObject v => .notObject v.kindText

end ConfigFault

/-! ## Errors -/

/-- Why there is no configuration. -/
inductive ConfigError where
  | notFound (path : Path)
  | parse (path : Path) (fault : ConfigFault)
  /-- A document extends one that is being loaded. -/
  | circularExtends (path : Path)
  deriving DecidableEq, Repr

/-- The error in words. -/
def ConfigError.message : ConfigError → String
  | .notFound path => "unable to find tsconfig at " ++ path.text
  | .parse path fault => "Error reading \"" ++ path.text ++ "\":\n  " ++ fault.message
  | .circularExtends path => "circular extends chain through " ++ path.text

end MapChain
