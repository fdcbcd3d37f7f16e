import Mathlib.Data.List.TakeWhile
import MapChain.Json.Number

/-!
# Number texts

The text of a number is a literal of the grammar. That of an integer reads back as the integer; that
of a floating-point number always has a fraction or an exponent, so it is never read as an integer.

## Layers

- **Shortest decimals**: zero is never scaled, since it stands for no other number.
- **Literals**: what is read of digits before a point, digits after it and an exponent.
- **Digits of naturals**: they begin with a zero only where it stands alone.
- **Texts**: how integers and floating-point numbers are laid out.

Main results: `Number.value?_integerText`, `Number.value?_realText` and
`Number.isSome_ofChars?_text`.
-/

namespace MapChain

/-! ## Shortest decimals -/

theorem Decimal.digits_strip_ne_zero {fuel : Nat} {d : Decimal} (h : d.digits ≠ 0) :
    (Decimal.strip fuel d).digits ≠ 0 := by
  induction fuel generalizing d with
  | zero => exact h
  | succ fuel ih =>
    rw [strip]
    split
    -- Only a zero is taken off at the end, so there are other digits before it
    next hzero =>
      apply ih
      dsimp only
      omega
    next => exact h

namespace Binary64

/-- The rounding interval of a number that is not zero lies above zero. -/
theorem interval_low_pos {x : Binary64} (h : x.significand ≠ 0) : 0 < x.interval.low := by
  have hbelow (below : Nat) (hle : below ≤ 2) : 0 < 4 * x.significand - below := by omega
  rw [interval]
  dsimp only
  -- Scaled by a power of two or not, the interval begins at most half a unit below the number
  split
  next => exact Nat.mul_pos (hbelow _ (by split <;> decide)) (Nat.pow_pos (by decide))
  next => exact hbelow _ (by split <;> decide)

namespace Interval

theorem ne_zero_of_holds {i : Interval} (h : 0 < i.low) {num scale : Nat} (hscale : 0 < scale)
    (hholds : i.holds num scale) : num ≠ 0 := by
  rintro rfl
  have hlow : 0 < i.low * scale := Nat.mul_pos h hscale
  rw [holds] at hholds
  split at hholds
  next =>
    rw [Bool.and_eq_true, decide_eq_true_eq] at hholds
    omega
  next =>
    rw [Bool.and_eq_true, decide_eq_true_eq] at hholds
    exact absurd hholds.1 (Nat.not_lt_zero _)

theorem digits_ne_zero_of_onGrid? {i : Interval} (h : 0 < i.low) {power : Int} {d : Decimal}
    (hd : i.onGrid? power = some d) : d.digits ≠ 0 := by
  rw [onGrid?] at hd
  have hscale : 0 < Nat.pow 10 (-power).toNat := Nat.pow_pos (by decide)
  -- Rounded down the digits lie in the interval, and rounded up they are one more
  split at hd
  next hdown =>
    cases hd
    rw [Bool.and_eq_true] at hdown
    exact (Nat.mul_ne_zero_iff.mp (ne_zero_of_holds h hscale hdown.1)).1
  next =>
    rw [Option.ite_none_right_eq_some] at hd
    cases hd.2
    exact Nat.succ_ne_zero _

end Interval

/-- The shortest decimal of a number that is not zero is not zero, or is not scaled. -/
theorem exponent_shortest {x : Binary64} (h : x.significand ≠ 0) :
    x.shortest.digits = 0 → x.shortest.exponent = 0 := by
  have hfrom (i : Interval) (hlow : 0 < i.low) (magnitude : Int) (fuel digits : Nat) :
      (shortestFrom i magnitude fuel digits).digits = 0 →
        (shortestFrom i magnitude fuel digits).exponent = 0 := by
    -- The induction is on the lengths that are tried; after the last one zero is given unscaled
    induction fuel generalizing digits with
    | zero => exact fun _ => rfl
    | succ fuel ih =>
      rw [shortestFrom]
      split
      next d hd =>
        exact fun hzero =>
          absurd hzero (Decimal.digits_strip_ne_zero (i.digits_ne_zero_of_onGrid? hlow hd))
      next => exact ih _
  exact hfrom _ (interval_low_pos h) _ _ _

end Binary64

namespace Json

/-! ## Literals -/

namespace NumberLiteral

/-- The text is at its end, or its next character is no digit. -/
def EndsDigits (text : List Char) : Prop := ∀ c ∈ text.head?, c.isDigit = false

theorem endsDigits_nil : EndsDigits [] := nofun

theorem spanDigits_append {digits rest : List Char} (hdigits : ∀ c ∈ digits, c.isDigit)
    (hrest : EndsDigits rest) : spanDigits (digits ++ rest) = (digits.map digit, rest) := by
  have hnone : rest.takeWhile Char.isDigit = [] ∧ rest.dropWhile Char.isDigit = rest := by
    cases rest with
    | nil => exact ⟨rfl, rfl⟩
    | cons c rest => simp [hrest c rfl]
  rw [spanDigits, List.takeWhile_append_of_pos hdigits, List.dropWhile_append_of_pos hdigits,
    hnone.1, hnone.2, List.append_nil]

/-- Digits that can stand before the point: there is one, and a leading zero stands alone. -/
structure IsWhole (digits : List Char) : Prop where
  isDigit : ∀ c ∈ digits, c.isDigit
  leading : digits = ['0'] ∨ ∃ c rest, digits = c :: rest ∧ c ≠ '0'

theorem IsWhole.ne_nil {digits : List Char} (h : IsWhole digits) : digits ≠ [] := by
  rintro rfl
  obtain heq | ⟨c, rest, heq, -⟩ := h.leading <;> cases heq

theorem isWhole_zero : IsWhole ['0'] := ⟨List.forall_mem_singleton.mpr rfl, .inl rfl⟩

/-- The first of these digits can stand before the point too. -/
theorem IsWhole.take {digits : List Char} (h : IsWhole digits) (k : Nat) :
    IsWhole (digits.take (k + 1)) := by
  refine ⟨fun c hc => h.isDigit c (List.mem_of_mem_take hc), ?_⟩
  obtain rfl | ⟨c, rest, rfl, hc⟩ := h.leading
  · exact .inl (by rw [List.take_succ_cons, List.take_nil])
  · exact .inr ⟨c, rest.take k, rfl, hc⟩

theorem digit_pos {c : Char} (h : c.isDigit) (hc : c ≠ '0') : 0 < digit c := by
  have hrange : 48 ≤ c.toNat ∧ c.toNat ≤ 57 := by
    simpa [Char.isDigit, UInt32.le_iff_toNat_le] using h
  have hzero : c.toNat ≠ 48 := fun heq => hc (Char.toNat_inj.mp heq)
  change 0 < c.toNat - 48
  omega

/-- A zero stands alone among the values of digits before the point. -/
theorem IsWhole.map_digit {whole : List Char} (h : IsWhole whole) :
    whole.map digit = [0] ∨ ∃ d ds, whole.map digit = (d + 1) :: ds := by
  obtain rfl | ⟨c, more, rfl, hc⟩ := h.leading
  · exact .inl rfl
  · have hpos := digit_pos (h.isDigit c List.mem_cons_self) hc
    exact .inr ⟨digit c - 1, more.map digit, by rw [List.map_cons, Nat.sub_add_cancel hpos]⟩

/-- How a sign is written. -/
def signText (negative : Bool) : List Char := if negative then ['-'] else []

/-- Reads what follows the sign of a literal. -/
def ofUnsigned? (negative : Bool) (text : List Char) : Option NumberLiteral :=
  match spanDigits text with
  | ([], _) => none
  | (0 :: _ :: _, _) => none
  | (whole, '.' :: text) =>
    match spanDigits text with
    | ([], _) => none
    | (fraction, text) => (exponent? text).map (⟨negative, whole, some fraction, ·⟩)
  | (whole, text) => (exponent? text).map (⟨negative, whole, none, ·⟩)

theorem ofChars?_signText (negative : Bool) {text : List Char} (h : ∀ c ∈ text.head?, c ≠ '-') :
    ofChars? (signText negative ++ text) = ofUnsigned? negative text := by
  cases negative with
  | true => rfl
  | false =>
    rw [signText, if_neg Bool.false_ne_true, List.nil_append]
    cases text with
    | nil => rfl
    | cons c text =>
      unfold ofChars?
      split
      next heq =>
        split at heq
        next hminus => exact absurd (List.cons.inj hminus).1 (h c rfl)
        next =>
          cases heq
          rfl

/-- A literal without a fraction: the exponent follows the digits. -/
theorem ofUnsigned?_append {whole tail : List Char} (negative : Bool) (hwhole : IsWhole whole)
    (htail : EndsDigits tail) (hpoint : ∀ c ∈ tail.head?, c ≠ '.') :
    ofUnsigned? negative (whole ++ tail) =
      (exponent? tail).map (⟨negative, whole.map digit, none, ·⟩) := by
  rw [ofUnsigned?, spanDigits_append hwhole.isDigit htail]
  -- A zero before other digits is refused, so the first digit has to be known
  obtain heq | ⟨d, ds, heq⟩ := hwhole.map_digit
  all_goals
    rw [heq]
    split
    next h => cases h
    next h => cases h
    next h =>
      cases h
      exact absurd rfl (hpoint _ rfl)
    next h =>
      cases h
      rfl

/-- A literal with a fraction: a point and more digits come before the exponent. -/
theorem ofUnsigned?_point {whole fraction tail : List Char} (negative : Bool)
    (hwhole : IsWhole whole) (hfraction : ∀ c ∈ fraction, c.isDigit) (hne : fraction ≠ [])
    (htail : EndsDigits tail) :
    ofUnsigned? negative (whole ++ '.' :: (fraction ++ tail)) =
      (exponent? tail).map (⟨negative, whole.map digit, some (fraction.map digit), ·⟩) := by
  have hpoint : EndsDigits ('.' :: (fraction ++ tail)) := fun c hc => by cases hc; rfl
  have hmap : fraction.map digit ≠ [] := by simpa using hne
  rw [ofUnsigned?, spanDigits_append hwhole.isDigit hpoint]
  obtain heq | ⟨d, ds, heq⟩ := hwhole.map_digit
  all_goals
    rw [heq]
    split
    next h => cases h
    next h => cases h
    next h =>
      cases h
      rw [spanDigits_append hfraction htail]
      split
      next h => exact absurd (congrArg Prod.fst h) hmap
      next h =>
        cases h
        rfl
    next hpoint h =>
      cases h
      exact absurd rfl (hpoint _)

theorem exponent?_append {digits : List Char} (negative : Bool)
    (hdigits : ∀ c ∈ digits, c.isDigit) (hne : digits ≠ []) :
    exponent? ('e' :: (if negative then '-' else '+') :: digits) =
      some (some (negative, digits.map digit)) := by
  have hspan := spanDigits_append hdigits endsDigits_nil
  rw [List.append_nil] at hspan
  have hmap : digits.map digit ≠ [] := by simpa using hne
  cases negative with
  | true => simp [exponent?, hspan]
  | false => simp [exponent?, hspan]

/-! ## Digits of naturals -/

theorem isDigit_toDigits (n : Nat) : ∀ c ∈ Nat.toDigits 10 n, c.isDigit := fun _ hc =>
  Nat.isDigit_of_mem_toDigits (by decide) (by decide) hc

/-- The digits of a natural other than zero begin with another digit than zero. -/
theorem toDigits_eq_cons {n : Nat} (hn : n ≠ 0) :
    ∃ c rest, Nat.toDigits 10 n = c :: rest ∧ c ≠ '0' := by
  induction n using Nat.strongRecOn with
  | ind n ih =>
    by_cases hlt : n < 10
    · exact ⟨n.digitChar, [], Nat.toDigits_of_lt_base hlt, mt Nat.digitChar_eq_zero.mp hn⟩
    · -- The last digit is put behind those of the tenth part
      obtain ⟨c, rest, heq, hc⟩ := ih (n / 10) (by omega) (by omega)
      rw [Nat.toDigits_of_base_le (by decide) (by omega), heq]
      exact ⟨c, rest ++ [(n % 10).digitChar], rfl, hc⟩

theorem isWhole_toDigits (n : Nat) : IsWhole (Nat.toDigits 10 n) := by
  refine ⟨isDigit_toDigits n, ?_⟩
  by_cases hn : n = 0
  · subst hn
    exact .inl rfl
  · exact .inr (toDigits_eq_cons hn)

theorem natural_map_digit (digits : List Char) :
    natural (digits.map digit) = Nat.ofDigitChars 10 digits 0 := by
  rw [natural, List.foldl_map, Nat.ofDigitChars_eq_foldl]
  simp only [digit, Nat.mul_comm]

theorem natural_toDigits (n : Nat) : natural ((Nat.toDigits 10 n).map digit) = n := by
  rw [natural_map_digit, Nat.ofDigitChars_ten_toDigits]

/-! ## Texts -/

/-- A text without a sign is a literal with a fraction or an exponent. -/
def IsRealText (text : List Char) : Prop :=
  (∀ c ∈ text.head?, c ≠ '-') ∧
    ∀ negative, ∃ l, ofUnsigned? negative text = some l ∧ l.integer? = none

theorem IsWhole.head?_append {whole : List Char} (h : IsWhole whole) (rest : List Char) :
    ∀ c ∈ (whole ++ rest).head?, c ≠ '-' := by
  rintro c hc rfl
  obtain rfl | ⟨d, more, rfl, -⟩ := h.leading
  · cases hc
  · cases hc
    exact absurd (h.isDigit _ List.mem_cons_self) (by decide)

theorem isRealText_point {whole fraction tail : List Char} {e : Option (Bool × List Nat)}
    (hwhole : IsWhole whole) (hfraction : ∀ c ∈ fraction, c.isDigit) (hne : fraction ≠ [])
    (htail : EndsDigits tail) (he : exponent? tail = some e) :
    IsRealText (whole ++ '.' :: (fraction ++ tail)) := by
  refine ⟨hwhole.head?_append _, fun negative => ?_⟩
  rw [ofUnsigned?_point negative hwhole hfraction hne htail, he]
  exact ⟨_, rfl, if_pos (.inl rfl)⟩

theorem isRealText_fraction {whole fraction : List Char} (hwhole : IsWhole whole)
    (hfraction : ∀ c ∈ fraction, c.isDigit) (hne : fraction ≠ []) :
    IsRealText (whole ++ '.' :: fraction) := by
  have h := isRealText_point hwhole hfraction hne endsDigits_nil rfl
  rwa [List.append_nil] at h

theorem endsDigits_exponent (text : List Char) : EndsDigits ('e' :: text) := fun c hc => by
  cases hc
  rfl

theorem isRealText_exponent {whole digits : List Char} (hwhole : IsWhole whole) (negative : Bool)
    (hdigits : ∀ c ∈ digits, c.isDigit) (hne : digits ≠ []) :
    IsRealText (whole ++ 'e' :: (if negative then '-' else '+') :: digits) := by
  refine ⟨hwhole.head?_append _, fun sign => ?_⟩
  rw [ofUnsigned?_append sign hwhole (endsDigits_exponent _), exponent?_append negative hdigits hne]
  · exact ⟨_, rfl, if_pos (.inr rfl)⟩
  · rintro c hc rfl
    cases hc

theorem isDigit_replicate (n : Nat) : ∀ c ∈ List.replicate n '0', c.isDigit := by
  intro c hc
  rw [List.eq_of_mem_replicate hc]
  rfl

/-- Zeros can stand behind digits that do not begin with a zero. -/
theorem IsWhole.append_replicate {digits : List Char} (h : IsWhole digits) {k : Nat}
    (hk : k = 0 ∨ ∃ c rest, digits = c :: rest ∧ c ≠ '0') :
    IsWhole (digits ++ List.replicate k '0') := by
  refine ⟨List.forall_mem_append.mpr ⟨h.isDigit, isDigit_replicate _⟩, ?_⟩
  obtain rfl | ⟨c, rest, rfl, hc⟩ := hk
  · rw [List.replicate_zero, List.append_nil]
    exact h.leading
  · exact .inr ⟨c, rest ++ _, rfl, hc⟩

/-- However a decimal is laid out, it is a literal with a fraction or an exponent, if zero is not
scaled. -/
theorem isRealText_layOut (layout : RealLayout) {d : Decimal} (h : d.digits = 0 → d.exponent = 0) :
    IsRealText (layOut layout d) := by
  have hdigits := isDigit_toDigits d.digits
  have hwhole := isWhole_toDigits d.digits
  have hcons (hexponent : d.exponent ≠ 0) := toDigits_eq_cons (mt h hexponent)
  rw [layOut]
  generalize Nat.toDigits 10 d.digits = digits at *
  dsimp only
  split
  next hlarge =>
    -- All digits stand before the point, with zeros behind them
    have hall : IsWhole (digits ++ List.replicate d.exponent.toNat '0') := by
      refine hwhole.append_replicate ?_
      by_cases hexponent : d.exponent = 0
      · exact .inl (by rw [hexponent, Int.toNat_zero])
      · exact .inr (hcons hexponent)
    exact isRealText_fraction hall isWhole_zero.isDigit isWhole_zero.ne_nil
  next hlarge =>
  split
  next hmiddle =>
    -- The point stands between the digits
    obtain ⟨k, hk⟩ : ∃ k, ((digits.length : Int) + d.exponent).toNat = k + 1 :=
      ⟨_, (Nat.sub_add_cancel (by omega)).symm⟩
    rw [hk]
    refine isRealText_fraction (hwhole.take k) (fun c hc => hdigits c (List.mem_of_mem_drop hc)) ?_
    rw [ne_eq, List.drop_eq_nil_iff]
    omega
  next hmiddle =>
  split
  next hsmall =>
    -- All digits stand behind the point, with zeros before them
    exact isRealText_fraction isWhole_zero
      (List.forall_mem_append.mpr ⟨isDigit_replicate _, hdigits⟩)
      (List.append_ne_nil_of_right_ne_nil _ hwhole.ne_nil)
  next hsmall =>
    generalize ((digits.length : Int) + d.exponent) - 1 = power
    have hpower := isDigit_toDigits power.natAbs
    have hne : Nat.toDigits 10 power.natAbs ≠ [] := Nat.toDigits_ne_nil
    have hsign : (if power < 0 then '-' else '+') =
        if decide (power < 0) then '-' else '+' := by simp
    rw [hsign]
    split
    next c => exact isRealText_exponent hwhole _ hpower hne
    next c more hmore =>
      -- The point stands behind the first digit
      have hexponent := exponent?_append (decide (power < 0)) hpower hne
      have htail : ∀ d ∈ more, d.isDigit := fun d hd => hdigits d (List.mem_cons_of_mem _ hd)
      exact isRealText_point (hwhole.take 0) htail hmore (endsDigits_exponent _) hexponent
    next => exact absurd rfl hwhole.ne_nil

end NumberLiteral

namespace Number

open NumberLiteral

theorem ofChars?_integerText (n : Int) :
    ofChars? (integerText n) =
      some ⟨decide (n < 0), (Nat.toDigits 10 n.natAbs).map digit, none, none⟩ := by
  have htext : integerText n =
      signText (decide (n < 0)) ++ (Nat.toDigits 10 n.natAbs ++ []) := by
    rw [integerText, signText, List.append_nil]
    by_cases hn : n < 0 <;> simp [hn]
  have hhead : ∀ c ∈ (Nat.toDigits 10 n.natAbs ++ []).head?, c ≠ '-' := by
    rintro c hc rfl
    rw [List.append_nil] at hc
    exact absurd (isDigit_toDigits n.natAbs _ (List.mem_of_mem_head? hc)) (by decide)
  rw [htext, ofChars?_signText _ hhead, ofUnsigned?_append _ (isWhole_toDigits _) endsDigits_nil
    (by simp)]
  rfl

/-- An integer is read back. -/
theorem value?_integerText (n : Int) (fits : leastInteger ≤ n ∧ n ≤ greatestInteger) :
    (ofChars? (integerText n)).bind value? = some (.integer n fits) := by
  rw [ofChars?_integerText, Option.bind_some, value?]
  have hinteger : integer? ⟨decide (n < 0), (Nat.toDigits 10 n.natAbs).map digit, none, none⟩ =
      some n := by
    rw [integer?, if_neg (by simp)]
    dsimp only
    rw [natural_toDigits]
    by_cases hn : n < 0
    · rw [decide_eq_true hn, if_pos rfl, if_neg (by omega)]
      exact congrArg some (by omega)
    · rw [decide_eq_false hn, if_neg Bool.false_ne_true]
      exact congrArg some (by omega)
  rw [hinteger]
  exact dif_pos fits

theorem realText_eq (x : Binary64) : ∃ text, IsRealText text ∧
    realText x = signText x.negative ++ text := by
  refine ⟨if x.significand = 0 then ['0', '.', '0'] else layOut realLayout x.shortest, ?_, ?_⟩
  · split
    next => exact isRealText_fraction isWhole_zero isWhole_zero.isDigit isWhole_zero.ne_nil
    next h => exact isRealText_layOut _ (Binary64.exponent_shortest h)
  · rw [realText, signText]
    cases x.negative <;> rfl

/-- The text of a floating-point number is a literal with a fraction or an exponent. -/
theorem exists_ofChars?_realText (x : Binary64) :
    ∃ l, ofChars? (realText x) = some l ∧ l.integer? = none := by
  obtain ⟨text, ⟨hsign, htext⟩, heq⟩ := realText_eq x
  rw [heq, ofChars?_signText _ hsign]
  exact htext x.negative

/-- What is read back for a floating-point number is none, or a floating-point number. -/
theorem value?_realText {x : Binary64} {n : Number}
    (h : (ofChars? (realText x)).bind value? = some n) : ∃ y, n = .real y := by
  obtain ⟨l, hl, hinteger⟩ := exists_ofChars?_realText x
  -- A literal that is no integer is rounded, which may be out of range
  rw [hl, Option.bind_some, value?, hinteger] at h
  obtain ⟨y, -, rfl⟩ := Option.map_eq_some_iff.mp h
  exact ⟨y, rfl⟩

/-- **The text of a number is a literal.** -/
theorem isSome_ofChars?_text (n : Number) : (ofChars? n.text).isSome := by
  cases n with
  | integer n _ => rw [text, ofChars?_integerText]; rfl
  | real x =>
    obtain ⟨l, hl, -⟩ := exists_ofChars?_realText x
    rw [text, hl]
    rfl

end Number

end Json

end MapChain
