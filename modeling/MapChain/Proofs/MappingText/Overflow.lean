import MapChain.Proofs.MappingText.Reading

/-!
# Numbers beyond 64 bits

The unsigned number that digits spell has no bound, but reading keeps 64 bits of it. A fourteenth
digit is refused. A thirteenth has four bits left for it and brings five, and nothing looks at the
fifth: the digits spill over, and the number that is read lacks `2 ^ 64`.

## Layers

- **Digits**: thirteen digits or fewer go beyond 64 bits exactly when they spill over
  (`size_le_groupSum_iff`).
- **Numbers**: `read_digits` says what is read of any digits, and `signed_mod_eq_iff` when it is the
  number that they spell.
- **Runs**: the reader of a mapping text takes a number as `read` does (`Reader.takesNumber`).
- **Statement**: `read_exact_iff`.
-/

namespace MapChain

namespace Vlq

/-! ## Digits -/

instance decidableContinued : (digits : List Sextet) → Decidable (Continued digits)
  | [] => inferInstanceAs (Decidable False)
  | [d] => inferInstanceAs (Decidable (d.val < 32))
  | d :: e :: digits =>
    have := decidableContinued (e :: digits)
    inferInstanceAs (Decidable (32 ≤ d.val ∧ Continued (e :: digits)))

/-- Thirteen digits of which the last one has more than the four bits that are left for it. -/
def Spills (digits : List Sextet) : Prop :=
  ∃ front d, digits = front ++ [d] ∧ front.length = 12 ∧ 16 ≤ d.val

theorem groupSum_lt (digits : List Sextet) : groupSum digits < 32 ^ digits.length := by
  have hgroups : ∀ g ∈ digits.map fun d => d.val % 32, g < 32 := by
    simpa using fun d _ => Nat.mod_lt _ (by decide)
  simpa [groupSum] using Nat.ofDigits_lt_base_pow_length (by decide) hgroups

/-- Thirteen digits have 65 bits. -/
theorem groupSum_lt_of_length {digits : List Sextet} (h : digits.length ≤ 13) :
    groupSum digits < 2 * UInt64.size :=
  (groupSum_lt digits).trans_le ((Nat.pow_le_pow_right (by decide) h).trans (by decide))

theorem Spills.length_le {digits : List Sextet} (h : Spills digits) : digits.length ≤ 13 := by
  obtain ⟨front, d, rfl, hlength, -⟩ := h
  simp [hlength]

theorem groupSum_concat (front : List Sextet) (d : Sextet) :
    groupSum (front ++ [d]) = groupSum front + 32 ^ front.length * (d.val % 32) := by
  simp [groupSum, Nat.ofDigits_append]

theorem Continued.last_lt {front : List Sextet} {d : Sextet} (h : Continued (front ++ [d])) :
    d.val < 32 := by
  induction front with
  | nil => exact h
  | cons e front ih =>
    cases front with
    | nil => exact ih h.2
    | cons a front => exact ih h.2

/-- **Beyond 64 bits** lie those of the numbers with at most thirteen digits that spill over. -/
theorem size_le_groupSum_iff {digits : List Sextet} (h : Continued digits)
    (hlength : digits.length ≤ 13) : UInt64.size ≤ groupSum digits ↔ Spills digits := by
  obtain ⟨front, d, rfl⟩ : ∃ front d, digits = front ++ [d] :=
    ⟨_, _, (List.dropLast_concat_getLast h.ne_nil).symm⟩
  have hlast := h.last_lt
  have hfront := groupSum_lt front
  rw [List.length_append, List.length_singleton] at hlength
  rw [groupSum_concat, Nat.mod_eq_of_lt hlast]
  constructor
  · intro hle
    -- Twelve digits or fewer stay below `2 ^ 60`
    have hlong : front.length = 12 := by
      by_contra hne
      have hpow : 32 ^ front.length ≤ 32 ^ 11 := Nat.pow_le_pow_right (by decide) (by omega)
      have hmul : 32 ^ front.length * d.val ≤ 32 ^ 11 * 31 := Nat.mul_le_mul hpow (by omega)
      simp only [UInt64.size] at hle
      omega
    refine ⟨front, d, rfl, hlong, ?_⟩
    rw [hlong] at hle hfront
    simp only [UInt64.size] at hle
    omega
  · rintro ⟨front', d', heq, hlong, hd⟩
    obtain ⟨rfl, hdd⟩ := List.append_inj' heq rfl
    obtain rfl : d = d' := by simpa using hdd
    rw [hlong, UInt64.size]
    omega

/-! ## Numbers -/

/-- What 64 bits keep of a number with 65 is the number itself only if it has no more than 64. -/
theorem signed_mod_eq_iff {n : Nat} (h : n < 2 * UInt64.size) :
    signed (n % UInt64.size) = signed n ↔ n < UInt64.size := by
  simp only [UInt64.size] at h ⊢
  unfold signed
  split <;> split <;> omega

theorem readFrom_overflow {p : Partial} {digits : List Sextet} {rest : List Symbol}
    (h : Continued digits) (hlong : 13 < p.count + digits.length) :
    readFrom p (digits.map .digit ++ rest) = .error .overflow := by
  induction digits generalizing p with
  | nil => exact absurd rfl h.ne_nil
  | cons d digits ih =>
    rw [List.map_cons, List.cons_append, readFrom]
    rw [List.length_cons] at hlong
    rcases Nat.lt_or_ge 12 p.count with hcount | hcount
    · rw [push_of_count hcount]
    · -- There is room for this digit, so it is not the last one
      rcases Nat.lt_or_ge d.val 32 with hd | hd
      · rw [(continued_cons_of_lt hd).mp h, List.length_nil] at hlong
        omega
      · rw [push_of_le hcount hd]
        exact ih ((continued_cons_of_le hd).mp h) (by simp only; omega)

/-- **What is read** of the digits of one number: 64 bits of it, unless there are more than thirteen
digits. -/
theorem read_digits {digits : List Sextet} (h : Continued digits) (rest : List Symbol) :
    read (digits.map .digit ++ rest) =
      if digits.length ≤ 13 then .ok (signed (groupSum digits % UInt64.size), rest)
      else .error .overflow := by
  split
  · next hlength => exact read_eq_ok_iff.mpr ⟨digits, rfl, h, hlength, rfl⟩
  · next hlength =>
    rw [read]
    exact readFrom_overflow h (by simp only [Partial.empty]; omega)

end Vlq

/-! ## Runs -/

namespace MappingText.Reader

variable {t : Totals} {fields : List Int} {p : Vlq.Partial}

/-- A symbol that ends no segment is passed over. -/
theorem run_cons_of_step {r r' : Reader} {s : Symbol} (h : r.step s = .ok (none, r')) (i : Nat)
    (text : List Symbol) : r.run i (s :: text) = r'.run (i + 1) text := by
  rw [run, h]
  simp only [Option.toList_none, List.nil_append]
  cases r'.run (i + 1) text <;> rfl

theorem step_of_push_error {d : Sextet} {f : MappingFault} (h : p.push d = .error f) :
    step ⟨t, fields, some p⟩ (.digit d) = .error f := by
  simp [step, pushDigit, h]

theorem step_of_push_done {d : Sextet} {v : Int} (h : p.push d = .ok (.done v)) :
    step ⟨t, fields, some p⟩ (.digit d) = .ok (none, ⟨t, fields ++ [v], none⟩) := by
  simp [step, pushDigit, h, pure, Except.pure]

theorem step_of_push_more {d : Sextet} {q : Vlq.Partial} (h : p.push d = .ok (.more q)) :
    step ⟨t, fields, some p⟩ (.digit d) = .ok (none, ⟨t, fields, some q⟩) := by
  simp [step, pushDigit, h, pure, Except.pure]

/-- The digits that complete a number put it behind the numbers of its segment. -/
theorem run_completes {digits : List Sextet} (h : Vlq.Continued digits)
    (hlength : p.count + digits.length ≤ 13) (i : Nat) (rest : List Symbol) :
    run ⟨t, fields, some p⟩ i (digits.map .digit ++ rest) =
      run ⟨t, fields ++ [Vlq.signed ((p.sum + 32 ^ p.count * Vlq.groupSum digits) % UInt64.size)],
        none⟩ (i + digits.length) rest := by
  -- The digits read so far change with every further one
  induction digits generalizing p i with
  | nil => exact absurd rfl h.ne_nil
  | cons d digits ih =>
    rw [List.length_cons] at hlength ⊢
    rw [List.map_cons, List.cons_append]
    rcases Nat.lt_or_ge d.val 32 with hd | hd
    · obtain rfl := (Vlq.continued_cons_of_lt hd).mp h
      rw [run_cons_of_step (step_of_push_done (Vlq.push_of_lt (by omega) hd))]
      simp [Nat.mul_comm]
    · rw [run_cons_of_step (step_of_push_more (Vlq.push_of_le (by omega) hd)),
        ih ((Vlq.continued_cons_of_le hd).mp h) (by simp only; omega), Vlq.groupSum_cons]
      -- The group of the digit counts to the sum so far
      have hsum : p.sum + d.val % 32 * 32 ^ p.count + 32 ^ (p.count + 1) * Vlq.groupSum digits =
          p.sum + 32 ^ p.count * (d.val % 32 + 32 * Vlq.groupSum digits) := by
        ring
      rw [hsum, Nat.add_assoc, Nat.add_comm 1]

/-- A fault of a number is the fault of its text. -/
theorem run_of_readFrom_error {text : List Symbol} {f : MappingFault}
    (h : Vlq.readFrom p text = .error f) (i : Nat) :
    ∃ o, run ⟨t, fields, some p⟩ i text = .error (o, f) := by
  induction text generalizing p i with
  | nil =>
    cases h
    exact ⟨i, rfl⟩
  | cons s text ih =>
    by_cases hs : ∃ d, s = .digit d
    · obtain ⟨d, rfl⟩ := hs
      rw [Vlq.readFrom] at h
      cases hpush : p.push d with
      | error g =>
        simp only [hpush] at h
        cases h
        exact ⟨i, by rw [run, step_of_push_error hpush]⟩
      | ok progress =>
        cases progress with
        | done v => simp [hpush] at h
        | more q =>
          simp only [hpush] at h
          rw [run_cons_of_step (step_of_push_more hpush)]
          exact ih h (i + 1)
    · have hs' : ∀ d, s ≠ .digit d := fun d hd => hs ⟨d, hd⟩
      rw [Vlq.readFrom_of_not_digit hs'] at h
      cases h
      refine ⟨i, ?_⟩
      cases s with
      | digit d => exact absurd rfl (hs' d)
      | comma => rfl
      | semicolon => rfl
      | other b => rfl

/-- The reader takes the number at the start of a text as it is read: it goes on behind the number,
or ends with the fault. -/
structure TakesNumber (r : Reader) (i : Nat) (text : List Symbol) : Prop where
  goes_on : ∀ v rest, Vlq.read text = .ok (v, rest) →
    r.run i text =
      run { r with fields := r.fields ++ [v] } (i + (text.length - rest.length)) rest
  ends : ∀ f, Vlq.read text = .error f → ∃ o, r.run i text = .error (o, f)

/-- **A number is taken as it is read** wherever a segment has room for one. -/
theorem takesNumber {i : Nat} {text : List Symbol} (hroom : fields.length < maxFields)
    (hstart : ∃ d, text.head? = some (.digit d)) : TakesNumber ⟨t, fields, none⟩ i text := by
  obtain ⟨d, hd⟩ := hstart
  obtain ⟨more, rfl⟩ := List.head?_eq_some_iff.mp hd
  -- The first digit begins the number
  have hbegin : run ⟨t, fields, none⟩ i (.digit d :: more) =
      run ⟨t, fields, some .empty⟩ i (.digit d :: more) := by
    rw [run, run, step_digit hroom.ne]
  refine ⟨fun v rest hread => ?_, fun f hread => ?_⟩
  · obtain ⟨digits, htext, hspells⟩ := Vlq.read_eq_ok_iff.mp hread
    have hempty : Vlq.Partial.empty.count + digits.length ≤ 13 := by
      simpa [Vlq.Partial.empty] using hspells.length_le
    rw [hbegin, htext, run_completes hspells.continued hempty, hspells.value]
    simp [Vlq.Partial.empty]
  · rw [hbegin]
    exact run_of_readFrom_error hread i

end MappingText.Reader

/-! ## Statement -/

namespace Vlq

/-- The symbols of some bytes from an offset on. -/
def symbolsFrom (bytes : List UInt8) (offset : Nat) : List Symbol :=
  (bytes.drop offset).map Symbol.ofByte

/-- **Numbers are read exactly unless they spill over.** A number that is read at some offset is
what its digits spell, except when these spill over. The digits of a number beyond 64 bits are
refused, except when they spill over: then `2 ^ 64` is missing from what is read. And this is how the
reader of a mapping text takes its numbers. -/
theorem read_exact_iff (bytes : List UInt8) (offset : Nat) :
    (∀ v rest, read (symbolsFrom bytes offset) = .ok (v, rest) → ∃ digits,
      symbolsFrom bytes offset = digits.map .digit ++ rest ∧ Continued digits ∧
        (v = signed (groupSum digits) ↔ ¬ Spills digits)) ∧
    (∀ digits rest, symbolsFrom bytes offset = digits.map .digit ++ rest → Continued digits →
      2 ^ 64 ≤ groupSum digits →
        (¬ Spills digits → read (symbolsFrom bytes offset) = .error .overflow) ∧
        (Spills digits → read (symbolsFrom bytes offset) =
          .ok (signed (groupSum digits - 2 ^ 64), rest))) ∧
    ∀ t fields i, fields.length < MappingText.maxFields →
      (∃ d, (symbolsFrom bytes offset).head? = some (.digit d)) →
        MappingText.Reader.TakesNumber ⟨t, fields, none⟩ i (symbolsFrom bytes offset) := by
  refine ⟨?_, ?_, fun t fields i => MappingText.Reader.takesNumber⟩
  · intro v rest hread
    obtain ⟨digits, htext, hspells⟩ := read_eq_ok_iff.mp hread
    refine ⟨digits, htext, hspells.continued, ?_⟩
    rw [hspells.value, signed_mod_eq_iff (groupSum_lt_of_length hspells.length_le),
      ← size_le_groupSum_iff hspells.continued hspells.length_le, Nat.not_le]
  · intro digits rest htext hcontinued hlarge
    rw [htext, read_digits hcontinued]
    constructor
    · intro hspills
      rw [if_neg fun hlength => hspills ((size_le_groupSum_iff hcontinued hlength).mp hlarge)]
    · intro hspills
      have hlength := hspills.length_le
      have hlt := groupSum_lt_of_length hlength
      -- A number of 65 bits without its highest one
      have hkept : groupSum digits % UInt64.size = groupSum digits - 2 ^ 64 := by
        simp only [UInt64.size] at hlt ⊢
        omega
      rw [if_pos hlength, hkept]

/-- A digit without bits of its own, twelve times, and one with the fifth bit. -/
def spilledDigits : List Sextet := List.replicate 12 ⟨32, by decide⟩ ++ [⟨16, by decide⟩]

/-- `2 ^ 64` in thirteen digits is read as zero. -/
theorem read_spilledDigits :
    symbolsFrom "ggggggggggggQ".toUTF8.toList 0 = spilledDigits.map .digit ∧
      Continued spilledDigits ∧ groupSum spilledDigits = 2 ^ 64 ∧
      signed (groupSum spilledDigits) = 2 ^ 63 ∧
      read (symbolsFrom "ggggggggggggQ".toUTF8.toList 0) = .ok (0, []) ∧
      MappingText.decode "ggggggggggggQ" = .ok [⟨0, 0, none⟩] := by
  exact ⟨by decide +kernel, by decide, by decide +kernel, by decide +kernel, by decide +kernel,
    by decide +kernel⟩

/-- Thirteen digits without bits of their own, and a fourteenth. -/
def longDigits : List Sextet := List.replicate 13 ⟨32, by decide⟩ ++ [⟨1, by decide⟩]

/-- `2 ^ 65` in fourteen digits is refused, behind another number. -/
theorem read_longDigits :
    symbolsFrom "CgggggggggggggB".toUTF8.toList 1 = longDigits.map .digit ++ [] ∧
      Continued longDigits ∧ 2 ^ 64 ≤ groupSum longDigits ∧ ¬ Spills longDigits ∧
      read (symbolsFrom "CgggggggggggggB".toUTF8.toList 1) = .error .overflow := by
  have htext : symbolsFrom "CgggggggggggggB".toUTF8.toList 1 = longDigits.map .digit ++ [] := by
    decide +kernel
  have hcontinued : Continued longDigits := by decide
  have hlarge : 2 ^ 64 ≤ groupSum longDigits := by decide +kernel
  have hspills : ¬ Spills longDigits := fun h => absurd h.length_le (by decide)
  exact ⟨htext, hcontinued, hlarge, hspills,
    ((read_exact_iff _ 1).2.1 longDigits [] htext hcontinued hlarge).1 hspills⟩

end Vlq

end MapChain
