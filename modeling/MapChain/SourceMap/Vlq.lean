/-!
# Variable-length quantities

A signed number is written as base-64 digits. The lowest bit of an unsigned number holds the sign
and the bits above it the magnitude; its groups of five bits follow one another, lowest group first,
each in a digit whose sixth bit says that another digit follows.

The unsigned number has 64 bits. Writing drops what does not fit, so `-2 ^ 63` is written like minus
zero. Reading takes at most thirteen digits, of which the last contributes no more than four bits.
-/

namespace MapChain

/-! ## Symbols -/

/-- A base-64 digit. -/
abbrev Sextet := Fin 64

/-- One byte of a mapping text: a digit, one of the two separators, or none of these. -/
inductive Symbol where
  | digit (d : Sextet)
  | comma
  | semicolon
  | other (byte : UInt8)
  deriving DecidableEq, Repr

namespace Symbol

/-- The byte of a digit: upper case, lower case, decimal digits, plus and slash. -/
def ofSextet (d : Sextet) : UInt8 :=
  if d.val < 26 then 65 + d.val.toUInt8
  else if d.val < 52 then 71 + d.val.toUInt8
  else if d.val < 62 then d.val.toUInt8 - 4
  else if d.val = 62 then 43
  else 47

/-- The digit that a byte stands for. -/
def sextet? (byte : UInt8) : Option Sextet :=
  let n := byte.toNat
  if h : 65 ≤ n ∧ n < 91 then some ⟨n - 65, by omega⟩
  else if h : 97 ≤ n ∧ n < 123 then some ⟨n - 71, by omega⟩
  else if h : 48 ≤ n ∧ n < 58 then some ⟨n + 4, by omega⟩
  else if n = 43 then some 62
  else if n = 47 then some 63
  else none

/-- What a byte of a mapping text is. -/
def ofByte (byte : UInt8) : Symbol :=
  match sextet? byte with
  | some d => .digit d
  | none => if byte = 44 then .comma else if byte = 59 then .semicolon else .other byte

/-- The byte of a symbol. -/
def toByte : Symbol → UInt8
  | .digit d => ofSextet d
  | .comma => 44
  | .semicolon => 59
  | .other byte => byte

@[simp] theorem sextet?_ofSextet (d : Sextet) : sextet? (ofSextet d) = some d := by
  revert d; decide

@[simp] theorem ofByte_ofSextet (d : Sextet) : ofByte (ofSextet d) = .digit d := by
  simp [ofByte]

end Symbol

/-! ## Faults -/

/-- The five numbers of a segment, each written relative to the one before it. -/
inductive SegmentField where
  | generatedColumn | sourceIndex | sourceLine | sourceColumn | nameIndex
  deriving DecidableEq, Repr

/-- Why a mapping text is malformed. -/
inductive MappingFault where
  | unterminated
  | notBase64
  | overflow
  | tooManyFields
  | wrongFieldCount
  | tooManyLines
  | negative (field : SegmentField)
  | outOfRange (field : SegmentField)
  deriving DecidableEq, Repr

/-- A field in the words of a message. -/
def SegmentField.text : SegmentField → String
  | .generatedColumn => "generated column"
  | .sourceIndex => "source index"
  | .sourceLine => "original line"
  | .sourceColumn => "original column"
  | .nameIndex => "name index"

/-- A fault in words. -/
def MappingFault.message : MappingFault → String
  | .unterminated => "unterminated value"
  | .notBase64 => "invalid base64 character"
  | .overflow => "value overflows 64 bits"
  | .tooManyFields => "segment has more than five fields"
  | .wrongFieldCount => "segment must have 1, 4 or 5 fields"
  | .tooManyLines => "too many lines"
  | .negative field => "negative " ++ field.text
  | .outOfRange field => field.text ++ " out of range"

namespace Vlq

/-! ## Writing -/

/-- The unsigned number of a signed one. -/
def unsigned (v : Int) : Nat := (if v < 0 then 2 * v.natAbs + 1 else 2 * v.natAbs) % UInt64.size

/-- The digits of an unsigned number. -/
def digits (n : Nat) : List Sextet :=
  if h : n < 32 then [⟨n, by omega⟩] else ⟨n % 32 + 32, by omega⟩ :: digits (n / 32)
termination_by n
decreasing_by omega

/-- Writes a signed number. -/
def encode (v : Int) : List Sextet := digits (unsigned v)

/-! ## Reading -/

/-- The signed number of an unsigned one. -/
def signed (n : Nat) : Int := if n % 2 = 1 then -(n / 2 : Nat) else (n / 2 : Nat)

/-- The digits of a number that have been read: how many, and their weighted sum. -/
structure Partial where
  count : Nat
  sum : Nat
  deriving DecidableEq, Repr

/-- No digit read yet. -/
def Partial.empty : Partial := ⟨0, 0⟩

/-- What a digit makes of a number that is being read. -/
inductive Progress where
  | more (p : Partial)
  | done (v : Int)
  deriving DecidableEq, Repr

/-- Takes one more digit. A fourteenth is refused; the sum counts modulo `2 ^ 64`. -/
def Partial.push (p : Partial) (d : Sextet) : Except MappingFault Progress :=
  if 12 < p.count then .error .overflow
  else
    let sum := p.sum + d.val % 32 * Nat.pow 32 p.count
    if d.val < 32 then .ok (.done (signed (sum % UInt64.size))) else .ok (.more ⟨p.count + 1, sum⟩)

/-- Reads on a number from the start of a text, and returns it with the rest. -/
def readFrom (p : Partial) : List Symbol → Except MappingFault (Int × List Symbol)
  | [] => .error .unterminated
  | .digit d :: rest =>
    match p.push d with
    | .error f => .error f
    | .ok (.done v) => .ok (v, rest)
    | .ok (.more p) => readFrom p rest
  | _ :: _ => .error .notBase64

/-- Reads one number from the start of a text, and returns it with the rest. -/
def read (text : List Symbol) : Except MappingFault (Int × List Symbol) := readFrom .empty text

end Vlq

end MapChain
