/-!
# JSON string literals

The body of a string literal is what stands between its quotes. Reading it has two steps. The first
resolves the escapes: each yields a character, or a UTF-16 code unit when it is written in
hexadecimal. The second joins the units of a surrogate pair to one character. A surrogate without
its partner spells no text, but the literal that holds it is well-formed all the same: only a reader
that wants the text refuses it.

Writing escapes the quote, the backslash and the control characters, and nothing else.
-/

namespace MapChain.Json.Quoted

/-! ## Resolving escapes -/

/-- What one place of a literal's body spells. -/
inductive Piece where
  | char (c : Char)
  /-- A code unit written as `\u` and four digits. -/
  | unit (u : Nat)
  deriving DecidableEq, Repr

/-- The value of a hexadecimal digit of either case. -/
def hexDigit? (c : Char) : Option Nat :=
  if '0' ≤ c ∧ c ≤ '9' then some (c.toNat - '0'.toNat)
  else if 'a' ≤ c ∧ c ≤ 'f' then some (c.toNat - 'a'.toNat + 10)
  else if 'A' ≤ c ∧ c ≤ 'F' then some (c.toNat - 'A'.toNat + 10)
  else none

/-- The character after a backslash and the one it stands for. -/
def shortEscapes : List (Char × Char) :=
  [('"', '"'), ('\\', '\\'), ('/', '/'), ('b', '\x08'), ('f', '\x0c'), ('n', '\n'), ('r', '\r'),
    ('t', '\t')]

/-- Resolves the escapes of a body. A control character may not stand in it unescaped. -/
def pieces? : List Char → Option (List Piece)
  | [] => some []
  | '\\' :: 'u' :: a :: b :: c :: d :: body => do
    let high := (← hexDigit? a) * 16 + (← hexDigit? b)
    let low := (← hexDigit? c) * 16 + (← hexDigit? d)
    let u := high * 256 + low
    return .unit u :: (← pieces? body)
  | '\\' :: e :: body => do
    return .char (← shortEscapes.lookup e) :: (← pieces? body)
  | c :: body =>
    if c = '\\' ∨ c.toNat < 0x20 then none else (pieces? body).map (.char c :: ·)

/-! ## Joining surrogates -/

/-- A code unit that opens a surrogate pair. -/
def isHighSurrogate (u : Nat) : Bool := 0xD800 ≤ u && u < 0xDC00

/-- A code unit that closes a surrogate pair. -/
def isLowSurrogate (u : Nat) : Bool := 0xDC00 ≤ u && u < 0xE000

/-- The characters that pieces spell; `none` when a surrogate stands alone. -/
def join? : List Piece → Option (List Char)
  | [] => some []
  | .char c :: rest => (join? rest).map (c :: ·)
  | .unit u :: .unit v :: rest =>
    if isHighSurrogate u then
      if isLowSurrogate v then
        (join? rest).map (Char.ofNat (0x10000 + (u - 0xD800) * 0x400 + (v - 0xDC00)) :: ·)
      else none
    else if isLowSurrogate u then none
    else (join? (.unit v :: rest)).map (Char.ofNat u :: ·)
  | .unit u :: rest =>
    if isHighSurrogate u || isLowSurrogate u then none
    else (join? rest).map (Char.ofNat u :: ·)

/-- The text a body spells. -/
def decode? (body : List Char) : Option String :=
  (pieces? body).bind fun ps => (join? ps).map String.ofList

/-! ## Writing -/

/-- A hexadecimal digit in lower case. -/
def hexChar (n : Nat) : Char := Nat.digitChar n

/-- How one character is written between quotes. -/
def encodeChar (c : Char) : List Char :=
  if c = '"' then ['\\', '"']
  else if c = '\\' then ['\\', '\\']
  else if c = '\x08' then ['\\', 'b']
  else if c = '\x0c' then ['\\', 'f']
  else if c = '\n' then ['\\', 'n']
  else if c = '\r' then ['\\', 'r']
  else if c = '\t' then ['\\', 't']
  else if c.toNat < 0x20 then
    ['\\', 'u', '0', '0', hexChar (c.toNat / 16), hexChar (c.toNat % 16)]
  else [c]

/-- The body of the literal that spells a text. -/
def encode (text : List Char) : List Char := text.flatMap encodeChar

end MapChain.Json.Quoted
