import MapChain.Number.Shortest

/-!
# JSON numbers

A number of a JSON document is an integer of the signed or the unsigned 64-bit range, or a finite
binary floating-point number. The two are kept apart: `3` is an integer and `3.0` is not, and
nothing that asks for an integer takes the second for the first.

## Literals

A literal with neither a fraction nor an exponent is an integer while it fits; `-0` and the literals
that do not fit are floating-point. Of the digits of a floating-point literal only those count that
fit 64 bits together; the ones after them keep their place value alone.
-/

namespace MapChain.Json

/-! ## The numbers -/

/-- The least integer a JSON number holds as an integer, `-2 ^ 63`. -/
def leastInteger : Int := -9223372036854775808

/-- The greatest integer a JSON number holds as an integer, `2 ^ 64 - 1`. -/
def greatestInteger : Int := 18446744073709551615

/-- An integer of the 64-bit ranges or a floating-point number. -/
inductive Number where
  | integer (value : Int) (fits : leastInteger ≤ value ∧ value ≤ greatestInteger)
  | real (value : Binary64)
  deriving DecidableEq

namespace Number

/-- A 32-bit natural as a number. -/
def ofUInt32 (n : UInt32) : Number :=
  .integer n.toNat (by
    have := n.toNat_lt
    simp only [leastInteger, greatestInteger]
    omega)

/-- A 64-bit natural as a number. -/
def ofUInt64 (n : UInt64) : Number :=
  .integer n.toNat (by
    have := n.toNat_lt
    simp only [leastInteger, greatestInteger]
    omega)

/-- The number as a natural below `2 ^ 64`, if it is an integer and not negative. -/
def toNat? : Number → Option Nat
  | .integer value _ => if 0 ≤ value then some value.toNat else none
  | .real _ => none

/-- The number as a 32-bit natural, if it is an integer of that range. -/
def toUInt32? (n : Number) : Option UInt32 :=
  n.toNat?.bind fun k => if k < UInt32.size then some (UInt32.ofNat k) else none

@[simp] theorem toNat?_ofUInt32 (n : UInt32) : (ofUInt32 n).toNat? = some n.toNat := by
  simp [ofUInt32, toNat?]

@[simp] theorem toUInt32?_ofUInt32 (n : UInt32) : (ofUInt32 n).toUInt32? = some n := by
  have : n.toNat < 4294967296 := n.toNat_lt
  simp [toUInt32?, this]

end Number

/-! ## Literals -/

/-- The parts of a number literal: sign, digits before the point, digits after it, and the exponent
with its sign. -/
structure NumberLiteral where
  negative : Bool
  whole : List Nat
  fraction : Option (List Nat)
  exponent : Option (Bool × List Nat)
  deriving DecidableEq

namespace NumberLiteral

/-- The value of a decimal digit. -/
def digit (c : Char) : Nat := c.toNat - '0'.toNat

/-- The digits at the start of a text and what follows them. -/
def spanDigits (text : List Char) : List Nat × List Char :=
  ((text.takeWhile Char.isDigit).map digit, text.dropWhile Char.isDigit)

/-- Reads the exponent that ends a literal: nothing, or `e`, a sign and at least one digit. -/
def exponent? : List Char → Option (Option (Bool × List Nat))
  | [] => some none
  | c :: text =>
    if c = 'e' ∨ c = 'E' then
      let (negative, text) := match text with
        | '+' :: r => (false, r)
        | '-' :: r => (true, r)
        | r => (false, r)
      match spanDigits text with
      | ([], _) => none
      | (digits, []) => some (some (negative, digits))
      | _ => none
    else none

/-- Reads a literal that takes up the whole text. A digit comes before the point and one after it,
and a leading zero stands alone. -/
def ofChars? (text : List Char) : Option NumberLiteral :=
  let (negative, text) := match text with
    | '-' :: r => (true, r)
    | r => (false, r)
  match spanDigits text with
  | ([], _) => none
  | (0 :: _ :: _, _) => none
  | (whole, '.' :: text) =>
    match spanDigits text with
    | ([], _) => none
    | (fraction, text) => (exponent? text).map (⟨negative, whole, some fraction, ·⟩)
  | (whole, text) => (exponent? text).map (⟨negative, whole, none, ·⟩)

/-- Appends digits to a natural while it fits 64 bits; the second part is the digits left over. -/
def absorb (n : Nat) : List Nat → Nat × List Nat
  | [] => (n, [])
  | d :: digits => if n * 10 + d < UInt64.size then absorb (n * 10 + d) digits else (n, d :: digits)

/-- A natural from its decimal digits. -/
def natural (digits : List Nat) : Nat := digits.foldl (fun n d => n * 10 + d) 0

/-- The exponent as an integer, zero when there is none. -/
def exponentValue (l : NumberLiteral) : Int :=
  match l.exponent with
  | none => 0
  | some (negative, digits) => if negative then -(natural digits : Int) else natural digits

/-- The value of a literal read as floating-point. -/
def real? (l : NumberLiteral) : Option Number :=
  let (n, skipped) := absorb 0 l.whole
  let fraction := l.fraction.getD []
  let (n, ignored) := absorb n fraction
  let power : Int := skipped.length - ((fraction.length : Int) - ignored.length) + l.exponentValue
  (Binary64.ofDecimal? l.negative n power).map .real

/-- The integer a literal writes when it has neither fraction nor exponent; `-0` writes none. -/
def integer? (l : NumberLiteral) : Option Int :=
  if l.fraction.isSome ∨ l.exponent.isSome then none
  else
    let n := natural l.whole
    if l.negative then if n = 0 then none else some (-(n : Int)) else some n

/-- The value of a literal; `none` when it is too large. -/
def value? (l : NumberLiteral) : Option Number :=
  match l.integer? with
  | some n => if h : leastInteger ≤ n ∧ n ≤ greatestInteger then some (.integer n h) else l.real?
  | none => l.real?

end NumberLiteral

/-! ## Writing -/

/-- How a floating-point number is laid out: with all its digits up to ten to the sixteenth and down
to a hundred-thousandth, and with an exponent beyond. A point is always followed by a digit, and an
exponent begins with its sign. -/
structure RealLayout where
  /-- The most digits before the point without an exponent. -/
  wholeDigits : Int
  /-- The most zeros after the point without an exponent. -/
  leadingZeros : Int

/-- The layout of the numbers this library writes. -/
def realLayout : RealLayout := ⟨16, 4⟩

/-- Writes a decimal in a layout. -/
def layOut (layout : RealLayout) (d : Decimal) : List Char :=
  let digits := Nat.toDigits 10 d.digits
  let count : Int := digits.length
  -- The point stands after this many digits
  let point := count + d.exponent
  if 0 ≤ d.exponent ∧ point ≤ layout.wholeDigits then
    digits ++ List.replicate d.exponent.toNat '0' ++ ['.', '0']
  else if 0 < point ∧ point ≤ layout.wholeDigits then
    digits.take point.toNat ++ '.' :: digits.drop point.toNat
  else if -layout.leadingZeros ≤ point ∧ point ≤ 0 then
    '0' :: '.' :: (List.replicate (-point).toNat '0' ++ digits)
  else
    let power := point - 1
    let tail := 'e' :: (if power < 0 then '-' else '+') :: Nat.toDigits 10 power.natAbs
    match digits with
    | [d] => d :: tail
    | d :: ds => d :: '.' :: ds ++ tail
    | [] => tail

namespace Number

/-- The literal of an integer. -/
def integerText (n : Int) : List Char :=
  if n < 0 then '-' :: Nat.toDigits 10 n.natAbs else Nat.toDigits 10 n.natAbs

/-- The literal of a floating-point number. -/
def realText (x : Binary64) : List Char :=
  let magnitude :=
    if x.significand = 0 then ['0', '.', '0'] else layOut realLayout x.shortest
  if x.negative then '-' :: magnitude else magnitude

/-- The literal that stands for a number. -/
def text : Number → List Char
  | .integer n _ => integerText n
  | .real x => realText x

end Number

end MapChain.Json
