import MapChain.SourceMap.Builder
import MapChain.Text.Units
import MapChain.Text.Whitespace

/-!
# Identity maps

The identity map of a text maps every token of it to itself. A token is a maximal run of characters
other than white space on one line; only a line feed ends a line. Columns count UTF-16 units.
-/

namespace MapChain

namespace Identity

/-- Where a scan of a text stands: the line and column of the next character, and whether the one
before it belongs to a token on this line. -/
structure Scan where
  line : Nat
  column : Nat
  inToken : Bool
  deriving DecidableEq, Repr

/-- The scan at the start of a text. -/
def Scan.start : Scan := ⟨1, 0, false⟩

/-- The scan after a character. -/
def Scan.next (s : Scan) (c : Char) : Scan :=
  if c = '\n' then ⟨s.line + 1, 0, false⟩
  else ⟨s.line, s.column + Text.utf16Width c, !Text.isBlank c⟩

/-- Whether a character starts a token. -/
def Scan.starts (s : Scan) (c : Char) : Bool := !Text.isBlank c && !s.inToken

/-- The starts of the tokens of a text, in order. -/
def tokenStarts (s : Scan) : List Char → List Position
  | [] => []
  | c :: text =>
    if s.starts c then Position.ofNat s.line s.column :: tokenStarts (s.next c) text
    else tokenStarts (s.next c) text

end Identity

/-- The identity map of a text, which it embeds. -/
def MapBuilder.identity (source text : String) : MapBuilder :=
  let starts := Identity.tokenStarts .start text.toList
  let mapped := starts.foldl (fun b p => add b p (some (source, p)) none) (empty none)
  mapped.setContent source text

end MapChain
