/-!
# Measuring text

A text has three lengths: characters, bytes of its UTF-8 form and code units of its UTF-16 form.
Columns of a source map and positions in a compiler diagnostic count UTF-16 units; offsets and spans
count bytes. This module converts between the last two and cuts a text at byte offsets.

A cut that falls inside a character has no answer, and neither has one past the end.
-/

namespace MapChain.Text

/-! ## Lengths -/

/-- UTF-16 code units of one character: two beyond the basic plane. -/
def utf16Width (c : Char) : Nat := if c.toNat < 0x10000 then 1 else 2

/-- UTF-16 code units of a text. -/
def utf16Length : List Char → Nat
  | [] => 0
  | c :: text => utf16Width c + utf16Length text

/-- UTF-8 bytes of a text. -/
def utf8Length : List Char → Nat
  | [] => 0
  | c :: text => c.utf8Size + utf8Length text

/-- Every character takes at least one unit. -/
theorem utf16Width_pos (c : Char) : 0 < utf16Width c := by
  unfold utf16Width; split <;> omega

@[simp] theorem utf16Length_nil : utf16Length [] = 0 := rfl

@[simp] theorem utf16Length_cons (c : Char) (text : List Char) :
    utf16Length (c :: text) = utf16Width c + utf16Length text := rfl

@[simp] theorem utf16Length_append (s t : List Char) :
    utf16Length (s ++ t) = utf16Length s + utf16Length t := by
  induction s with
  | nil => simp
  | cons c s ih => simp [ih, Nat.add_assoc]

@[simp] theorem utf8Length_nil : utf8Length [] = 0 := rfl

@[simp] theorem utf8Length_cons (c : Char) (text : List Char) :
    utf8Length (c :: text) = c.utf8Size + utf8Length text := rfl

@[simp] theorem utf8Length_append (s t : List Char) :
    utf8Length (s ++ t) = utf8Length s + utf8Length t := by
  induction s with
  | nil => simp
  | cons c s ih => simp [ih, Nat.add_assoc]

/-! ## From units to bytes -/

/-- The byte offset of the first character boundary with at least `units` UTF-16 units before it;
`none` when the text has fewer. -/
def byteOffset? : Nat → List Char → Option Nat
  | 0, _ => some 0
  | _ + 1, [] => none
  | units + 1, c :: text =>
    (byteOffset? (units + 1 - utf16Width c) text).map (c.utf8Size + ·)

/-! ## Cutting at bytes -/

/-- The text from byte offset `n` on. -/
def dropBytes? : Nat → List Char → Option (List Char)
  | 0, text => some text
  | _ + 1, [] => none
  | n + 1, c :: text =>
    if c.utf8Size ≤ n + 1 then dropBytes? (n + 1 - c.utf8Size) text else none

/-- The text before byte offset `n`. -/
def takeBytes? : Nat → List Char → Option (List Char)
  | 0, _ => some []
  | _ + 1, [] => none
  | n + 1, c :: text =>
    if c.utf8Size ≤ n + 1 then (takeBytes? (n + 1 - c.utf8Size) text).map (c :: ·) else none

/-- The text between two byte offsets. -/
def slice? (start stop : Nat) (text : List Char) : Option (List Char) :=
  if start ≤ stop then (dropBytes? start text).bind (takeBytes? (stop - start)) else none

end MapChain.Text
