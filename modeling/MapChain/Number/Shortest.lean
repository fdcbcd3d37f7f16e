import MapChain.Number.Binary64

/-!
# Shortest decimals

The decimal that stands for a binary floating-point number is the one with the fewest digits among
those that lie nearer to it than to any other number; among decimals of that length it is the
nearest, and of two equally near the one with the even last digit.

For each number of digits only two decimals are candidates: the neighbours of the number on the grid
of that many digits. The first grid with a neighbour inside the rounding interval decides.
-/

namespace MapChain

/-! ## Decimals -/

/-- The positive number `digits · 10 ^ exponent`, whose last digit is not zero. -/
structure Decimal where
  digits : Nat
  exponent : Int
  deriving DecidableEq, Repr

namespace Decimal

/-- Moves zeros at the end of the digits into the exponent. -/
def strip : Nat → Decimal → Decimal
  | 0, d => d
  | fuel + 1, d =>
    if d.digits ≠ 0 ∧ d.digits % 10 = 0 then strip fuel ⟨d.digits / 10, d.exponent + 1⟩ else d

end Decimal

namespace Binary64

/-! ## The rounding interval -/

/-- A number `x` with the interval of reals that round to it, all over one denominator. -/
structure Interval where
  low : Nat
  value : Nat
  high : Nat
  den : Nat
  /-- Both ends round to the number too. -/
  closed : Bool

/-- The reals that round to a positive number. Below a power of two the next number is only half as
far away. -/
def interval (x : Binary64) : Interval :=
  let m := 4 * x.significand
  let below := if x.significand = Nat.pow 2 52 ∧ -1074 < x.exponent then 1 else 2
  let closed := x.significand % 2 == 0
  let e := x.exponent - 2
  if 0 ≤ e then
    let s := Nat.pow 2 e.toNat
    ⟨(m - below) * s, m * s, (m + 2) * s, 1, closed⟩
  else ⟨m - below, m, m + 2, Nat.pow 2 (-e).toNat, closed⟩

namespace Interval

/-- Whether `num` lies inside once the ends are multiplied by `scale`. -/
def holds (i : Interval) (num scale : Nat) : Bool :=
  if i.closed then i.low * scale ≤ num && num ≤ i.high * scale
  else i.low * scale < num && num < i.high * scale

/-- The nearest decimal `n · 10 ^ power` inside the interval, if there is one. -/
def onGrid? (i : Interval) (power : Int) : Option Decimal :=
  -- Compare `n · step` with the ends times `scale`
  let scale := Nat.pow 10 (-power).toNat
  let step := i.den * Nat.pow 10 power.toNat
  let target := i.value * scale
  let n := target / step
  let down := i.holds (n * step) scale
  let up := i.holds ((n + 1) * step) scale
  let downGap := target - n * step
  let upGap := (n + 1) * step - target
  if down && (!up || downGap < upGap || (downGap == upGap && n % 2 == 0)) then some ⟨n, power⟩
  else if up then some ⟨n + 1, power⟩
  else none

/-- The least `p` with the value below `10 ^ p`, searched for from an upper bound down. -/
def magnitude (i : Interval) : Nat → Int → Int
  | 0, p => p
  | fuel + 1, p =>
    let q := p - 1
    if i.value * Nat.pow 10 (-q).toNat < i.den * Nat.pow 10 q.toNat then magnitude i fuel q else p

end Interval

/-! ## The search -/

/-- Tries one digit, then two, up to the seventeen that always suffice. -/
def shortestFrom (i : Interval) (magnitude : Int) : Nat → Nat → Decimal
  | 0, _ => ⟨0, 0⟩
  | fuel + 1, digits =>
    match i.onGrid? (magnitude - digits) with
    | some d => d.strip 20
    | none => shortestFrom i magnitude fuel (digits + 1)

/-- The shortest decimal that stands for a nonzero magnitude. -/
def shortest (x : Binary64) : Decimal :=
  let i := x.interval
  -- A number of `b` bits has at most `b · 0.302 + 1` decimal digits before the point
  let bits : Int := x.significand.log2 + 1 + x.exponent
  let bound : Int := bits * 30103 / 100000 + 2
  shortestFrom i (i.magnitude 8 bound) 18 1

end Binary64

end MapChain
