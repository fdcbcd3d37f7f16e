import Mathlib.Data.List.Basic

/-!
# The bytes of a text

What is read byte by byte is read character by character: the bytes of a text are those of its
characters, an ASCII character has one byte, and the bytes of any other lie above them.
-/

namespace MapChain

/-- Listing a byte array from an index lists what stands there in its data. -/
private theorem toList_loop (bytes : ByteArray) (i : Nat) (listed : List UInt8) :
    ByteArray.toList.loop bytes i listed = listed.reverse ++ bytes.data.toList.drop i := by
  induction hn : bytes.size - i generalizing i listed with
  | zero =>
    have hi : ¬ i < bytes.size := by omega
    rw [ByteArray.toList.loop, if_neg hi, List.drop_eq_nil_of_le (by simpa using hi),
      List.append_nil]
  | succ n ih =>
    have hi : i < bytes.data.toList.length := by
      rw [Array.length_toList, ByteArray.size_data]
      omega
    rw [ByteArray.toList.loop, if_pos (by omega), ih (i + 1) _ (by omega),
      List.drop_eq_getElem_cons hi, List.reverse_cons, List.append_assoc]
    simp [ByteArray.get!, show i < bytes.size by omega]

/-- The list of a byte array is the list of its data. -/
theorem byteArray_toList (bytes : ByteArray) : bytes.toList = bytes.data.toList := by
  rw [ByteArray.toList, toList_loop]
  rfl

/-- **The bytes of a text** are the bytes of its characters. -/
theorem toUTF8_toList (text : String) :
    text.toUTF8.toList = text.toList.flatMap String.utf8EncodeChar := by
  rw [String.toUTF8_eq_toByteArray, ← String.utf8Encode_toList, byteArray_toList, List.utf8Encode,
    List.toList_data_toByteArray]

/-- An ASCII character is one byte. -/
theorem utf8EncodeChar_of_lt {c : Char} (h : c.toNat < 128) :
    String.utf8EncodeChar c = [UInt8.ofNat c.toNat] := by
  have hle : c.val.toNat ≤ 127 := Nat.le_of_lt_succ h
  rw [String.utf8EncodeChar, if_pos hle]
  rfl

/-- A byte that is put together from a mark and some lower bits lies above its mark. -/
private theorem le_toNat_marked {mark bits : Nat} (n : Nat) (hmark : 128 ≤ mark) (hbits : 0 < bits)
    (hfits : bits + mark ≤ 256) : 128 ≤ (UInt8.ofNat (n % bits + mark)).toNat := by
  have hn : n % bits < bits := Nat.mod_lt n hbits
  rw [UInt8.toNat_ofNat', Nat.mod_eq_of_lt (by omega)]
  omega

/-- Every other character is made of bytes that no ASCII character has. -/
theorem le_of_mem_utf8EncodeChar {c : Char} (h : 128 ≤ c.toNat) {b : UInt8}
    (hb : b ∈ String.utf8EncodeChar c) : 128 ≤ b.toNat := by
  have hle : ¬ c.val.toNat ≤ 127 := Nat.not_le_of_lt h
  rw [String.utf8EncodeChar, if_neg hle] at hb
  -- Two, three or four bytes
  split_ifs at hb <;> simp only [List.mem_cons, List.not_mem_nil, or_false] at hb
  · rcases hb with rfl | rfl <;> exact le_toNat_marked _ (by decide) (by decide) (by decide)
  · rcases hb with rfl | rfl | rfl <;>
      exact le_toNat_marked _ (by decide) (by decide) (by decide)
  · rcases hb with rfl | rfl | rfl | rfl <;>
      exact le_toNat_marked _ (by decide) (by decide) (by decide)

/-- A text without control characters has no NUL byte. -/
theorem zero_notMem_toUTF8 {text : String} (h : ∀ c ∈ text.toList, 0x20 ≤ c.toNat) :
    0 ∉ text.toUTF8.toList := by
  rw [toUTF8_toList]
  intro hmem
  obtain ⟨c, hc, hbyte⟩ := List.mem_flatMap.mp hmem
  have hle := h c hc
  by_cases hlt : c.toNat < 128
  · rw [utf8EncodeChar_of_lt hlt, List.mem_singleton] at hbyte
    have hvalue := congrArg UInt8.toNat hbyte
    rw [UInt8.toNat_ofNat', Nat.mod_eq_of_lt (by omega)] at hvalue
    change 0 = c.toNat at hvalue
    omega
  · have hmark := le_of_mem_utf8EncodeChar (Nat.le_of_not_lt hlt) hbyte
    exact absurd hmark (by decide)

theorem toUTF8_toList_inj {s t : String} : s.toUTF8.toList = t.toUTF8.toList ↔ s = t := by
  refine ⟨fun h => ?_, congrArg fun u : String => u.toUTF8.toList⟩
  rw [byteArray_toList, byteArray_toList, Array.toList_inj] at h
  exact String.toByteArray_inj.mp (ByteArray.ext h)

end MapChain
