/-!
# Lossy text

Bytes that should be text in UTF-8 are read to the end whatever they hold. Where they start a
character and then do not go on with it, what there is of that character is read as one replacement
character; a byte that starts none is read as another.
-/

namespace MapChain.Text

/-- A character of which some bytes are read: the value of these, the number of bytes to come, and
the range of the next one. Later bytes have the whole range of bytes that go on with a character. -/
structure PartialChar where
  value : Nat
  remaining : Nat
  least : Nat
  greatest : Nat
  deriving DecidableEq, Repr

namespace PartialChar

/-- What a byte that is no character by itself starts. The range of the byte after it leaves out
spellings that are too long, surrogates, and values beyond Unicode. -/
def ofByte? (b : Nat) : Option PartialChar :=
  if 0xC2 ≤ b ∧ b ≤ 0xDF then some ⟨b - 0xC0, 1, 0x80, 0xBF⟩
  else if b = 0xE0 then some ⟨0, 2, 0xA0, 0xBF⟩
  else if b = 0xED then some ⟨0xD, 2, 0x80, 0x9F⟩
  else if 0xE1 ≤ b ∧ b ≤ 0xEF then some ⟨b - 0xE0, 2, 0x80, 0xBF⟩
  else if b = 0xF0 then some ⟨0, 3, 0x90, 0xBF⟩
  else if 0xF1 ≤ b ∧ b ≤ 0xF3 then some ⟨b - 0xF0, 3, 0x80, 0xBF⟩
  else if b = 0xF4 then some ⟨4, 3, 0x80, 0x8F⟩
  else none

/-- The same character with one more byte, if the byte goes on with it. -/
def push? (p : PartialChar) (b : Nat) : Option PartialChar :=
  if p.least ≤ b ∧ b ≤ p.greatest then some ⟨p.value * 64 + (b - 0x80), p.remaining - 1, 0x80, 0xBF⟩
  else none

end PartialChar

/-- Stands for bytes that are no character. -/
def replacementChar : Char := '\ufffd'

/-- Where reading stands after a byte that no character is waiting for: the characters read by it
and the character it starts. -/
def startChar (b : Nat) : List Char × Option PartialChar :=
  if b < 0x80 then ([Char.ofNat b], none)
  else match PartialChar.ofByte? b with
    | some p => ([], some p)
    | none => ([replacementChar], none)

/-- Where reading stands after one more byte. -/
def readByte (current : Option PartialChar) (b : Nat) : List Char × Option PartialChar :=
  match current with
  | none => startChar b
  | some p =>
    match p.push? b with
    | some p => if p.remaining = 0 then ([Char.ofNat p.value], none) else ([], some p)
    | none => (replacementChar :: (startChar b).1, (startChar b).2)

/-- Reads bytes while a character may be unfinished. -/
def lossyFrom (current : Option PartialChar) : List UInt8 → List Char
  | [] => if current.isSome then [replacementChar] else []
  | b :: bytes => (readByte current b.toNat).1 ++ lossyFrom (readByte current b.toNat).2 bytes

/-- Reads bytes as text. -/
def lossy (bytes : ByteArray) : String := String.ofList (lossyFrom none bytes.data.toList)

end MapChain.Text
