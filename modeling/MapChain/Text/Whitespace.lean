/-!
# White space

The characters with the Unicode property `White_Space`. They separate the tokens of a program text
and may stand between a comma and a closing bracket in a configuration document.

Four of them, and only four, are white space to JSON itself: space, tab, line feed and carriage
return.
-/

namespace MapChain.Text

/-! ## The two classes -/

/-- Has the Unicode property `White_Space`. -/
def isBlank (c : Char) : Bool :=
  let n := c.toNat
  (0x09 ≤ n && n ≤ 0x0D) || n == 0x20 || n == 0x85 || n == 0xA0 || n == 0x1680 ||
    (0x2000 ≤ n && n ≤ 0x200A) || n == 0x2028 || n == 0x2029 || n == 0x202F || n == 0x205F ||
    n == 0x3000

/-- May stand between two JSON tokens. -/
def isJsonSpace (c : Char) : Bool :=
  c == ' ' || c == '\t' || c == '\n' || c == '\r'

/-! ## How they relate -/

/-- Every blank of JSON is a blank of text. -/
theorem isBlank_of_isJsonSpace {c : Char} (h : isJsonSpace c = true) : isBlank c = true := by
  simp only [isJsonSpace, Bool.or_eq_true, beq_iff_eq] at h
  rcases h with ((rfl | rfl) | rfl) | rfl <;> decide

/-- Without its white space at either end. -/
def trimBlank (text : List Char) : List Char :=
  ((text.dropWhile isBlank).reverse.dropWhile isBlank).reverse

end MapChain.Text
