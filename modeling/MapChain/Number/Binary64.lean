/-!
# Binary floating-point numbers

A finite 64-bit binary floating-point number is a sign, a significand of at most 53 bits and a power
of two. All arithmetic here is exact on natural numbers up to one final rounding: a quotient of
naturals goes to the nearest such number, a tie to the even significand, and a quotient beyond the
largest one to none.

## Reading a decimal

`Binary64.ofDecimal?` reads `significand · 10 ^ exponent` in two roundings: the significand first,
then its product with (or quotient by) the rounded power of ten. A power beyond `10 ^ 308` overflows
upwards; downwards it is applied in steps of 308 until the number is in reach or zero.
-/

namespace MapChain

/-! ## The numbers -/

/-- What makes a significand and an exponent canonical: 53 bits, all of them used unless the
exponent is the least one. -/
def Binary64.Canonical (significand : Nat) (exponent : Int) : Prop :=
  significand < Nat.pow 2 53 ∧ -1074 ≤ exponent ∧ exponent ≤ 971 ∧
    (Nat.pow 2 52 ≤ significand ∨ exponent = -1074)

instance (significand : Nat) (exponent : Int) :
    Decidable (Binary64.Canonical significand exponent) :=
  inferInstanceAs (Decidable (_ ∧ _))

/-- The number `significand · 2 ^ exponent`, negated when `negative`; zero has both signs. -/
structure Binary64 where
  negative : Bool
  significand : Nat
  exponent : Int
  canonical : Binary64.Canonical significand exponent
  deriving DecidableEq

namespace Binary64

/-- Zero of either sign. -/
def zero (negative : Bool) : Binary64 := ⟨negative, 0, -1074, by decide⟩

/-- The same magnitude with the given sign. -/
def withSign (negative : Bool) (x : Binary64) : Binary64 := { x with negative := negative }

/-! ## Rounding -/

/-- The exponent at which `num / den` has a significand of 53 bits, or the least exponent if that
is more. -/
def exponentFor (num den : Nat) : Int :=
  let guess : Int := (num.log2 : Int) - den.log2 - 53
  let fits : Bool :=
    if 0 ≤ guess then num / (den * Nat.pow 2 guess.toNat) < Nat.pow 2 53
    else num * Nat.pow 2 (-guess).toNat / den < Nat.pow 2 53
  max (-1074) (if fits then guess else guess + 1)

/-- The quotient rounded to the nearest natural, a tie to the even one. -/
def nearestEven (num den : Nat) : Nat :=
  let q := num / den
  let r := num % den
  if 2 * r > den || (2 * r == den && q % 2 == 1) then q + 1 else q

/-- The number nearest to `num / den`, for a nonzero `den`; `none` beyond the largest number. -/
def ofQuotient? (num den : Nat) : Option Binary64 :=
  if num = 0 then some (zero false)
  else
    let e := exponentFor num den
    let m :=
      if 0 ≤ e then nearestEven num (den * Nat.pow 2 e.toNat)
      else nearestEven (num * Nat.pow 2 (-e).toNat) den
    -- Rounding up may need one bit more than there is
    let (m, e) := if m = Nat.pow 2 53 then (Nat.pow 2 52, e + 1) else (m, e)
    if h : Canonical m e then some ⟨false, m, e, h⟩ else none

/-- The magnitude as a quotient of naturals. -/
def quotient (x : Binary64) : Nat × Nat :=
  if 0 ≤ x.exponent then (x.significand * Nat.pow 2 x.exponent.toNat, 1)
  else (x.significand, Nat.pow 2 (-x.exponent).toNat)

/-- The rounded product of two magnitudes. -/
def mul? (x y : Binary64) : Option Binary64 :=
  ofQuotient? (x.quotient.1 * y.quotient.1) (x.quotient.2 * y.quotient.2)

/-- The rounded quotient of two magnitudes, the second of them nonzero. -/
def div? (x y : Binary64) : Option Binary64 :=
  ofQuotient? (x.quotient.1 * y.quotient.2) (x.quotient.2 * y.quotient.1)

/-! ## Decimals -/

/-- The greatest power of ten that has a number of its own. -/
def maxPower : Nat := 308

/-- Divides by `10 ^ power`, at most 308 decimal places at a time. -/
def divByPower? (x : Binary64) (power : Nat) : Option Binary64 :=
  if power ≤ maxPower then do
    x.div? (← ofQuotient? (Nat.pow 10 power) 1)
  else if x.significand = 0 then some x
  else do
    divByPower? (← x.div? (← ofQuotient? (Nat.pow 10 maxPower) 1)) (power - maxPower)
termination_by power
decreasing_by simp only [maxPower] at *; omega

/-- Multiplies by `10 ^ power`. -/
def mulByPower? (x : Binary64) (power : Nat) : Option Binary64 :=
  if power ≤ maxPower then do
    x.mul? (← ofQuotient? (Nat.pow 10 power) 1)
  else if x.significand = 0 then some x
  else none

/-- Reads `significand · 10 ^ exponent`; `none` when it is too large for a number. -/
def ofDecimal? (negative : Bool) (significand : Nat) (exponent : Int) : Option Binary64 := do
  let x ← ofQuotient? significand 1
  let scaled ← if 0 ≤ exponent then mulByPower? x exponent.toNat
    else divByPower? x (-exponent).toNat
  return scaled.withSign negative

end Binary64

end MapChain
