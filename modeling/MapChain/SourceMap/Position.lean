/-!
# Positions in a text

A source map talks about positions: a line, counted from one, and a column, counted from zero. Both
are 32-bit. Positions are ordered by line, then by column.
-/

namespace MapChain

/-- A line, counted from one, and a column, counted from zero. -/
structure Position where
  line : UInt32
  column : UInt32
  deriving DecidableEq, Repr, Inhabited

namespace Position

/-- The position of natural coordinates, which are taken modulo `2 ^ 32`. -/
def ofNat (line column : Nat) : Position := ⟨UInt32.ofNat line, UInt32.ofNat column⟩

instance : LE Position where
  le p q := p.line < q.line ∨ p.line = q.line ∧ p.column ≤ q.column

instance (p q : Position) : Decidable (p ≤ q) :=
  inferInstanceAs (Decidable (p.line < q.line ∨ p.line = q.line ∧ p.column ≤ q.column))

/-- Lines count first, and columns decide within a line. -/
theorem le_iff {p q : Position} :
    p ≤ q ↔ p.line.toNat < q.line.toNat ∨ p.line = q.line ∧ p.column.toNat ≤ q.column.toNat :=
  Iff.rfl

/-- A position is not after itself. -/
theorem le_refl (p : Position) : p ≤ p := by
  simp [le_iff]

/-- The order of positions is transitive. -/
theorem le_trans {p q r : Position} (h : p ≤ q) (h' : q ≤ r) : p ≤ r := by
  rw [le_iff] at *
  rcases h with h | ⟨h, hc⟩ <;> rcases h' with h' | ⟨h', hc'⟩
  · exact .inl (by omega)
  · exact .inl (by rw [← h']; exact h)
  · exact .inl (by rw [h]; exact h')
  · exact .inr ⟨h.trans h', by omega⟩

/-- Any two positions are comparable. -/
theorem le_total (p q : Position) : p ≤ q ∨ q ≤ p := by
  rw [le_iff, le_iff]
  rcases Nat.lt_trichotomy p.line.toNat q.line.toNat with h | h | h
  · exact .inl (.inl h)
  · have : p.line = q.line := UInt32.toNat_inj.1 h
    rcases Nat.le_total p.column.toNat q.column.toNat with hc | hc
    · exact .inl (.inr ⟨this, hc⟩)
    · exact .inr (.inr ⟨this.symm, hc⟩)
  · exact .inr (.inl h)

/-- Only equal positions are each at or before the other. -/
theorem le_antisymm {p q : Position} (h : p ≤ q) (h' : q ≤ p) : p = q := by
  rw [le_iff] at *
  have hl : p.line.toNat = q.line.toNat := by
    rcases h with h | ⟨h, _⟩ <;> rcases h' with h' | ⟨h', _⟩
    · omega
    · exact congrArg UInt32.toNat h'.symm
    · exact congrArg UInt32.toNat h
    · exact congrArg UInt32.toNat h
  have hc : p.column.toNat = q.column.toNat := by omega
  cases p; cases q
  simp_all [UInt32.toNat_inj]

end Position

end MapChain
