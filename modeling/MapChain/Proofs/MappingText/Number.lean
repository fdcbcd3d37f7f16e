import Mathlib.Data.Nat.Digits.Defs
import MapChain.SourceMap.Vlq

/-!
# Numbers as digits

Which digits spell a number, and that reading and writing agree with it.

- `Vlq.Spells` is the grammar: one to thirteen digits, all but the last one continued, whose groups
  of five bits taken modulo `2 ^ 64` hold the sign in the lowest bit and the magnitude above it.
- `read_eq_ok_iff`: reading takes the digits of one number from the start of a text and no others.
- `spells_encode`: writing spells every number whose magnitude is below `2 ^ 63`, so what is written
  is read back (`read_encode`).
-/

namespace MapChain.Vlq

/-! ## The grammar -/

/-- The unsigned number of digits, the lowest group of five bits first. -/
def groupSum (digits : List Sextet) : Nat :=
  Nat.ofDigits 32 (digits.map fun d => d.val % 32)

/-- All digits but the last are continued. -/
def Continued : List Sextet → Prop
  | [] => False
  | [d] => d.val < 32
  | d :: digits => 32 ≤ d.val ∧ Continued digits

/-- The digits of one number. -/
structure Spells (digits : List Sextet) (v : Int) : Prop where
  continued : Continued digits
  length_le : digits.length ≤ 13
  value : v = signed (groupSum digits % UInt64.size)

@[simp] theorem groupSum_nil : groupSum [] = 0 := rfl

@[simp] theorem groupSum_cons (d : Sextet) (digits : List Sextet) :
    groupSum (d :: digits) = d.val % 32 + 32 * groupSum digits := by
  simp [groupSum, Nat.ofDigits_cons]

theorem Continued.ne_nil {digits : List Sextet} (h : Continued digits) : digits ≠ [] := by
  rintro rfl
  exact h

theorem continued_cons_of_lt {d : Sextet} {digits : List Sextet} (hd : d.val < 32) :
    Continued (d :: digits) ↔ digits = [] := by
  cases digits with
  | nil => simp [Continued, hd]
  | cons e rest => simp [Continued]; omega

/-- After a continued digit there is another one. -/
theorem continued_cons_of_le {d : Sextet} {digits : List Sextet} (hd : 32 ≤ d.val) :
    Continued (d :: digits) ↔ Continued digits := by
  cases digits with
  | nil => simp [Continued]; omega
  | cons e rest => simp [Continued, hd]

/-! ## Reading -/

theorem push_of_lt {p : Partial} {d : Sextet} (hcount : p.count ≤ 12) (hd : d.val < 32) :
    p.push d =
      .ok (.done (signed ((p.sum + d.val % 32 * 32 ^ p.count) % UInt64.size))) := by
  simp [Partial.push, Nat.not_lt.mpr hcount, hd]

/-- A continued digit weighs in with its group. -/
theorem push_of_le {p : Partial} {d : Sextet} (hcount : p.count ≤ 12) (hd : 32 ≤ d.val) :
    p.push d = .ok (.more ⟨p.count + 1, p.sum + d.val % 32 * 32 ^ p.count⟩) := by
  simp [Partial.push, Nat.not_lt.mpr hcount, Nat.not_lt.mpr hd]

theorem push_of_count {p : Partial} {d : Sextet} (hcount : 12 < p.count) :
    p.push d = .error .overflow := by
  simp [Partial.push, hcount]

private theorem cons_eq_digits_iff {s : Symbol} {text rest : List Symbol} {digits : List Sextet}
    (h : digits ≠ []) :
    s :: text = digits.map .digit ++ rest ↔
      ∃ d digits', digits = d :: digits' ∧ s = .digit d ∧ text = digits'.map .digit ++ rest := by
  obtain ⟨d, digits', rfl⟩ := List.exists_cons_of_ne_nil h
  simp

theorem readFrom_of_not_digit {p : Partial} {s : Symbol} {text : List Symbol}
    (hs : ∀ d, s ≠ .digit d) : readFrom p (s :: text) = .error .notBase64 := by
  cases s with
  | digit d => exact absurd rfl (hs d)
  | comma => rfl
  | semicolon => rfl
  | other b => rfl

/-- Reading on a number takes the digits that complete it. The digits read so far weigh in with
their sum, and the thirteen digits that a number may have are counted from the first of them. -/
theorem readFrom_eq_ok_iff {v : Int} {rest text : List Symbol} {p : Partial} :
    readFrom p text = .ok (v, rest) ↔ ∃ digits, text = digits.map .digit ++ rest ∧
      Continued digits ∧ p.count + digits.length ≤ 13 ∧
      v = signed ((p.sum + 32 ^ p.count * groupSum digits) % UInt64.size) := by
  -- The sum so far changes with every digit, so it is general
  induction text generalizing p with
  | nil =>
    refine ⟨fun h => by simp [readFrom] at h, ?_⟩
    intro h
    obtain ⟨digits, htext, hcontinued, -⟩ := h
    simp only [List.nil_eq_append_iff, List.map_eq_nil_iff] at htext
    exact absurd htext.1 hcontinued.ne_nil
  | cons s text ih =>
    by_cases hs : ∃ d, s = .digit d
    · obtain ⟨d, rfl⟩ := hs
      by_cases hcount : p.count ≤ 12
      · by_cases hd : d.val < 32
        · -- The digit completes the number
          rw [readFrom, push_of_lt hcount hd]
          constructor
          · intro h
            cases h
            exact ⟨[d], rfl, hd, Nat.add_le_add_right hcount 1, by simp [Nat.mul_comm]⟩
          · intro hyp
            obtain ⟨digits, htext, hcontinued, hlength, rfl⟩ := hyp
            obtain ⟨e, digits', rfl, hde, rfl⟩ :=
              (cons_eq_digits_iff hcontinued.ne_nil).mp htext
            cases hde
            rw [(continued_cons_of_lt hd).mp hcontinued]
            simp [Nat.mul_comm]
        · rw [readFrom, push_of_le hcount (Nat.le_of_not_lt hd)]
          show readFrom _ text = _ ↔ _
          rw [ih]
          -- The group of the digit moves from the sum of what is to come to the sum so far
          have hsum : ∀ digits, p.sum + 32 ^ p.count * groupSum (d :: digits) =
              p.sum + d.val % 32 * 32 ^ p.count + 32 ^ (p.count + 1) * groupSum digits := by
            intro digits
            rw [groupSum_cons]
            ring
          constructor
          · intro hyp
            obtain ⟨digits, rfl, hcontinued, hlength, rfl⟩ := hyp
            refine ⟨d :: digits, rfl, (continued_cons_of_le (Nat.le_of_not_lt hd)).mpr hcontinued,
              ?_, by rw [hsum]⟩
            simp only [List.length_cons] at hlength ⊢
            omega
          · intro hyp
            obtain ⟨digits, htext, hcontinued, hlength, rfl⟩ := hyp
            obtain ⟨e, digits', rfl, hde, rfl⟩ :=
              (cons_eq_digits_iff hcontinued.ne_nil).mp htext
            cases hde
            refine ⟨digits', rfl, (continued_cons_of_le (Nat.le_of_not_lt hd)).mp hcontinued,
              ?_, by rw [hsum]⟩
            simp only [List.length_cons] at hlength ⊢
            omega
      · -- Thirteen digits have been read, and a number has at least one more
        rw [readFrom, push_of_count (Nat.lt_of_not_le hcount)]
        refine ⟨fun h => by simp at h, ?_⟩
        intro h
        obtain ⟨digits, -, hcontinued, hlength, -⟩ := h
        have hpos := List.length_pos_iff.mpr hcontinued.ne_nil
        omega
    · -- Digits cannot start with something else
      rw [readFrom_of_not_digit fun d hd => hs ⟨d, hd⟩]
      refine ⟨fun h => by simp at h, ?_⟩
      intro h
      obtain ⟨digits, htext, hcontinued, -⟩ := h
      obtain ⟨d, -, -, hd, -⟩ := (cons_eq_digits_iff hcontinued.ne_nil).mp htext
      exact absurd ⟨d, hd⟩ hs

/-- **Reading a number** takes the digits that spell it from the start of a text, and no others. -/
theorem read_eq_ok_iff {v : Int} {text rest : List Symbol} :
    read text = .ok (v, rest) ↔ ∃ digits, text = digits.map .digit ++ rest ∧ Spells digits v := by
  rw [read, readFrom_eq_ok_iff]
  constructor
  · intro h
    obtain ⟨digits, htext, hcontinued, hlength, hvalue⟩ := h
    exact ⟨digits, htext, hcontinued, by simpa [Partial.empty] using hlength,
      by simpa [Partial.empty] using hvalue⟩
  · intro h
    obtain ⟨digits, htext, hcontinued, hlength, hvalue⟩ := h
    exact ⟨digits, htext, hcontinued, by simpa [Partial.empty] using hlength,
      by simpa [Partial.empty] using hvalue⟩

/-- Digits that start with a number start with no other one. -/
theorem Spells.append_inj {number number' rest rest' : List Sextet} {v v' : Int}
    (h : Spells number v) (h' : Spells number' v') (heq : number ++ rest = number' ++ rest') :
    v = v' ∧ rest = rest' := by
  -- Both are what reading takes from the same text
  have hread : read ((number ++ rest).map .digit) = .ok (v, rest.map .digit) :=
    read_eq_ok_iff.mpr ⟨number, List.map_append, h⟩
  have hread' : read ((number ++ rest).map .digit) = .ok (v', rest'.map .digit) :=
    read_eq_ok_iff.mpr ⟨number', by rw [heq, List.map_append], h'⟩
  rw [hread] at hread'
  injection hread' with hpair
  injection hpair with hv hrest
  exact ⟨hv, (List.map_inj_right fun d e hde => Symbol.digit.inj hde).mp hrest⟩

/-! ## Writing -/

theorem groupSum_digits (n : Nat) : groupSum (digits n) = n := by
  -- On the number, since each digit divides it by 32
  induction n using Nat.strongRecOn with
  | ind n ih =>
    rw [digits]
    split
    · next h => simp [Nat.mod_eq_of_lt h]
    · rw [groupSum_cons, ih (n / 32) (by omega)]
      show (n % 32 + 32) % 32 + 32 * (n / 32) = n
      omega

theorem continued_digits (n : Nat) : Continued (digits n) := by
  induction n using Nat.strongRecOn with
  | ind n ih =>
    rw [digits]
    split
    · next h => exact h
    · exact (continued_cons_of_le (Nat.le_add_left 32 (n % 32))).mpr (ih (n / 32) (by omega))

theorem length_digits_le (k : Nat) : ∀ {n : Nat}, n < 32 ^ (k + 1) → (digits n).length ≤ k + 1 := by
  induction k with
  | zero =>
    intro n h
    rw [digits, dif_pos (by simpa using h)]
    simp
  | succ k ih =>
    intro n h
    rw [digits]
    split
    · simp
    · have hdiv : n / 32 < 32 ^ (k + 1) := by
        rw [Nat.div_lt_iff_lt_mul (by decide), ← pow_succ]
        exact h
      simpa using ih hdiv

theorem signed_unsigned {v : Int} (h : v.natAbs < 2 ^ 63) : signed (unsigned v) = v := by
  unfold signed unsigned
  rw [UInt64.size]
  split <;> split <;> omega

/-- **Writing spells** every number whose magnitude has at most 63 bits. -/
theorem spells_encode {v : Int} (h : v.natAbs < 2 ^ 63) : Spells (encode v) v where
  continued := continued_digits _
  length_le := by
    have hlt : unsigned v < UInt64.size := Nat.mod_lt _ (by decide)
    exact length_digits_le 12 (hlt.trans (by decide))
  value := by
    have hlt : unsigned v < UInt64.size := Nat.mod_lt _ (by decide)
    rw [encode, groupSum_digits, Nat.mod_eq_of_lt hlt, signed_unsigned h]

/-- What is written is read back, and nothing behind it. -/
theorem read_encode {v : Int} (h : v.natAbs < 2 ^ 63) (rest : List Symbol) :
    read ((encode v).map .digit ++ rest) = .ok (v, rest) :=
  read_eq_ok_iff.mpr ⟨encode v, rfl, spells_encode h⟩

end MapChain.Vlq
