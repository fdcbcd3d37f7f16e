import Mathlib.Algebra.Group.Nat.Defs
import Mathlib.Order.Bounds.Basic
import MapChain.Compiler.Diagnostic
import MapChain.Proofs.Text.Offsets

/-!
# The part of a text that a diagnostic is about

The compiler gives a start and a length in UTF-16 units, and a span is given in bytes. An end that
falls within a character moves to the boundary behind it, and an end past the text moves back to the
end of the text, also where the units that the compiler gives do not fit 32 bits together. A text of
less than `2 ^ 32` bytes has fewer units than that, so stopping at the greatest offset hides nothing.

## Layers

- **Boundaries**: the bytes before the shortest prefix with enough units are the least boundary
  (`IsReach.isLeast`), and a number of units past the end reaches the end
  (`getD_byteOffset?`).
- **Ends**: `exists_span?` finds both ends of a span.
- **Statement**: `span?_isLeast`.
-/

namespace MapChain

namespace Text

/-! ## Boundaries -/

/-- The character boundaries of a text, in bytes, with at least so many UTF-16 units before them. -/
def boundaries (text : List Char) (units : Nat) : Set Nat :=
  {n | ∃ before, before <+: text ∧ units ≤ utf16Length before ∧ utf8Length before = n}

theorem utf8Length_le_of_isPrefix {before text : List Char} (h : before <+: text) :
    utf8Length before ≤ utf8Length text := by
  obtain ⟨rest, rfl⟩ := h
  rw [utf8Length_append]
  exact Nat.le_add_right _ _

theorem IsReach.isLeast {units : Nat} {before text : List Char} (h : IsReach units before text) :
    IsLeast (boundaries text units) (utf8Length before) := by
  refine ⟨⟨before, h.isPrefix, h.enough, rfl⟩, ?_⟩
  rintro n ⟨p, hp, hunits, rfl⟩
  exact utf8Length_le_of_isPrefix (h.least p hp hunits)

/-- A prefix that has just so many units is the one that reaches them. -/
theorem IsReach.eq_of_isPrefix {units : Nat} {before p text : List Char}
    (h : IsReach units before text) (hp : p <+: text) (hunits : utf16Length p = units) :
    before = p := by
  subst hunits
  exact h.unique (.of_isPrefix hp)

/-- More units than a text has are converted to its end. -/
theorem getD_byteOffset? {units : Nat} {before text : List Char}
    (h : IsReach (min units (utf16Length text)) before text) :
    (byteOffset? units text).getD (utf8Length text) = utf8Length before := by
  rcases Nat.lt_or_ge (utf16Length text) units with hlt | hge
  · rw [Nat.min_eq_right hlt.le] at h
    rw [byteOffset?_eq_none hlt, h.unique (.of_isPrefix (List.prefix_refl text))]
    rfl
  · rw [Nat.min_eq_left hge] at h
    rw [byteOffset?_eq_some_iff.mpr ⟨before, h, rfl⟩]
    rfl

end Text

namespace Diagnostic

open Text

/-! ## Ends -/

/-- The units up to which a diagnostic reaches that starts at some units of a text. -/
def stopUnits (d : Diagnostic) (text : List Char) (start : UInt32) : Nat :=
  min (start.toNat + (d.length.getD 0).toNat) (utf16Length text)

theorem span?_eq_none_iff {d : Diagnostic} {text : List Char} :
    d.span? text = none ↔ ∀ start, d.start = some start → utf16Length text < start.toNat := by
  rw [span?]
  cases d.start with
  | none => simp
  | some start =>
    rcases Nat.lt_or_ge (utf16Length text) start.toNat with hlt | hge
    · simp [byteOffset?_eq_none hlt, hlt]
    · obtain ⟨before, -, hoffset⟩ := exists_reach hge
      simp [hoffset, hge]

theorem exists_span? {d : Diagnostic} {text : List Char} {start : UInt32}
    (hlength : utf8Length text < 2 ^ 32) (hstart : d.start = some start)
    (hle : start.toNat ≤ utf16Length text) :
    ∃ before upTo, IsReach start.toNat before text ∧ IsReach (d.stopUnits text start) upTo text ∧
      before <+: upTo ∧ d.span? text = some ⟨utf8Length before, utf8Length upTo⟩ := by
  obtain ⟨before, hbefore, hoffset⟩ := exists_reach hle
  obtain ⟨upTo, hupTo, -⟩ :=
    exists_reach (show d.stopUnits text start ≤ utf16Length text from Nat.min_le_right _ _)
  -- The greatest offset is not less than the units of the text
  have hclamped : min (min (start.toNat + (d.length.getD 0).toNat) Span.maxOffset)
      (utf16Length text) = d.stopUnits text start := by
    have hunits := utf16Length_le_utf8Length text
    have hmax : Span.maxOffset = 2 ^ 32 - 1 := rfl
    rw [stopUnits]
    omega
  have hprefix : before <+: upTo := by
    refine hbefore.mono ?_ hupTo
    rw [stopUnits]
    omega
  have hstop := getD_byteOffset? (hclamped ▸ hupTo)
  refine ⟨before, upTo, hbefore, hupTo, hprefix, ?_⟩
  simp only [span?, hstart, Option.bind_eq_bind, Option.bind_some, hoffset, hstop,
    Nat.max_eq_left (utf8Length_le_of_isPrefix hprefix)]
  rfl

/-! ## Statement -/

/-- **The span of a diagnostic** in a text of less than `2 ^ 32` bytes. There is none if the
diagnostic has no start or starts past the end of the text. Otherwise the span starts at the first
character boundary that has the units of the start before it, and stops at the first one that has
those of start and length, or all of the text. So if both ends fall between characters, what is
selected has as many units as the diagnostic says, or all there are from its start on. -/
theorem span?_isLeast {text : List Char} (hlength : utf8Length text < 2 ^ 32) (d : Diagnostic) :
    (d.span? text = none ↔ ∀ start, d.start = some start → utf16Length text < start.toNat) ∧
      ∀ span, d.span? text = some span → ∃ start, d.start = some start ∧
        span.start ≤ span.stop ∧ span.stop ≤ utf8Length text ∧
        IsLeast (boundaries text start.toNat) span.start ∧
        IsLeast (boundaries text (d.stopUnits text start)) span.stop ∧
        ((∃ p, p <+: text ∧ utf16Length p = start.toNat) →
          (∃ p, p <+: text ∧ utf16Length p = d.stopUnits text start) →
          ∃ selected, slice? span.start span.stop text = some selected ∧
            utf16Length selected =
              min (d.length.getD 0).toNat (utf16Length text - start.toNat)) := by
  refine ⟨span?_eq_none_iff, fun span hspan => ?_⟩
  have hsome : ¬ ∀ start, d.start = some start → utf16Length text < start.toNat := by
    rw [← span?_eq_none_iff, hspan]
    exact Option.some_ne_none span
  push Not at hsome
  obtain ⟨start, hstart, hle⟩ := hsome
  obtain ⟨before, upTo, hbefore, hupTo, hprefix, heq⟩ := exists_span? hlength hstart hle
  obtain rfl := Option.some.inj (hspan.symm.trans heq)
  refine ⟨start, hstart, utf8Length_le_of_isPrefix hprefix,
    utf8Length_le_of_isPrefix hupTo.isPrefix, hbefore.isLeast, hupTo.isLeast, ?_⟩
  rintro ⟨p, hp, hpunits⟩ ⟨q, hq, hqunits⟩
  -- Ends between characters are just reached
  obtain rfl := hbefore.eq_of_isPrefix hp hpunits
  obtain rfl := hupTo.eq_of_isPrefix hq hqunits
  obtain ⟨selected, rfl⟩ := hprefix
  obtain ⟨after, rfl⟩ := hq
  refine ⟨selected, slice?_append before selected after, ?_⟩
  rw [stopUnits, utf16Length_append] at hqunits
  omega

/-- A diagnostic that starts within a surrogate pair and ends with it is about nothing. -/
example : span? ⟨.error, 0, .text "", none, some 2, some 1⟩ ['é', '😀', 'x'] = some ⟨6, 6⟩ := by
  decide

/-- A diagnostic that starts at the second character of three and reaches much further. -/
def longDiagnostic : Diagnostic := ⟨.error, 0, .text "", none, some 1, some 0xFFFFFFFF⟩

/-- The span goes up to the end of the text and selects the three units there are. -/
theorem span?_longDiagnostic :
    utf8Length ['é', '😀', 'x'] < 2 ^ 32 ∧
      longDiagnostic.span? ['é', '😀', 'x'] = some ⟨2, 7⟩ ∧
      IsLeast (boundaries ['é', '😀', 'x'] 1) 2 ∧ IsLeast (boundaries ['é', '😀', 'x'] 4) 7 ∧
      ∃ selected, slice? 2 7 ['é', '😀', 'x'] = some selected ∧ utf16Length selected = 3 := by
  have hlength : utf8Length ['é', '😀', 'x'] < 2 ^ 32 := by decide
  have hspan : longDiagnostic.span? ['é', '😀', 'x'] = some ⟨2, 7⟩ := by decide
  obtain ⟨-, hall⟩ := span?_isLeast hlength longDiagnostic
  obtain ⟨start, hstart, -, -, hleast, hleast', hselected⟩ := hall ⟨2, 7⟩ hspan
  cases hstart
  exact ⟨hlength, hspan, hleast, hleast',
    hselected ⟨['é'], List.prefix_append _ _, rfl⟩ ⟨_, List.prefix_refl _, rfl⟩⟩

end Diagnostic

end MapChain
