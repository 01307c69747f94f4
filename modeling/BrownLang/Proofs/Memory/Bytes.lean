import BrownLang.Memory

/-!
# Bytes and words

A word is four bytes, the highest first.  What is written at an address is found
there, and all bytes beside it stay as they were.
-/

namespace BrownLang

/-! ## Words as bytes -/

namespace Word

theorem bytes_ofBytes (a b c d : UInt8) : bytes (ofBytes a b c d) = [a, b, c, d] := by
  have ha := a.toNat_lt
  have hb := b.toNat_lt
  have hc := c.toNat_lt
  have hd := d.toNat_lt
  have hbyte (k : Nat) (x : UInt8) (h : ofBytes a b c d >>> (24 - 8 * k) % 256 = x.toNat) :
      byte (ofBytes a b c d) k = x := by
    apply UInt8.toNat_inj.mp
    rw [byte, UInt8.toNat_ofNat', h]
  unfold bytes
  rw [hbyte 0 a, hbyte 1 b, hbyte 2 c, hbyte 3 d]
  all_goals
    simp only [ofBytes, Nat.shiftRight_eq_div_pow]
    omega

theorem ofBytes_bytes {n : Nat} (h : n < count) :
    ofBytes (byte n 0) (byte n 1) (byte n 2) (byte n 3) = n := by
  unfold count at h
  simp only [ofBytes, byte, UInt8.toNat_ofNat', Nat.shiftRight_eq_div_pow, Nat.reduceMul,
    Nat.reduceSub, Nat.reducePow]
  omega

theorem toNat_byte (w k : Nat) : (byte w k).toNat = w >>> (24 - 8 * k) % 256 := by
  rw [byte, UInt8.toNat_ofNat']

theorem byte_ofInt_shiftRight (v : Int) {k : Nat} (hk : k < 4) :
    byte (ofInt (v >>> (24 - 8 * k))) 3 = byte (ofInt v) k := by
  have hcases : k = 0 ∨ k = 1 ∨ k = 2 ∨ k = 3 := by omega
  apply UInt8.toNat_inj.mp
  simp only [toNat_byte, ofInt, Int.shiftRight_eq_div_pow, Nat.shiftRight_eq_div_pow]
  rcases hcases with rfl | rfl | rfl | rfl <;>
    simp only [Nat.reduceMul, Nat.reduceSub, Nat.reducePow] <;> omega

end Word

/-! ## Bytes of a memory -/

namespace Memory

variable (m : Memory)

theorem byteAt_setWord_of_apart {a i : Nat} (w : Nat) (h : i < a ∨ a + 4 ≤ i) :
    (m.setWord a w).byteAt i = m.byteAt i := by
  simp only [setWord, byteAt_setByte]
  rw [if_neg (by omega), if_neg (by omega), if_neg (by omega), if_neg (by omega)]

theorem wordAt_setWord_of_apart {a i : Nat} (w : Nat) (h : i + 4 ≤ a ∨ a + 4 ≤ i) :
    (m.setWord a w).wordAt i = m.wordAt i := by
  unfold wordAt
  rw [byteAt_setWord_of_apart, byteAt_setWord_of_apart, byteAt_setWord_of_apart,
    byteAt_setWord_of_apart] <;> omega

theorem byteAt_setWord_of_within {a k w : Nat} (hin : a + 4 ≤ m.size) (hk : k < 4) :
    (m.setWord a w).byteAt (a + k) = Word.byte w k := by
  have hcases : k = 0 ∨ k = 1 ∨ k = 2 ∨ k = 3 := by omega
  simp only [setWord, byteAt_setByte, size_setByte]
  rcases hcases with rfl | rfl | rfl | rfl
  · rw [if_neg (by omega), if_neg (by omega), if_neg (by omega), if_pos (by omega)]
  · rw [if_neg (by omega), if_neg (by omega), if_pos (by omega)]
  · rw [if_neg (by omega), if_pos (by omega)]
  · rw [if_pos (by omega)]

theorem wordAt_setWord {a w : Nat} (hin : a + 4 ≤ m.size) (hw : w < Word.count) :
    (m.setWord a w).wordAt a = w := by
  have hbyte (k : Nat) (hk : k < 4) : (m.setWord a w).byteAt (a + k) = Word.byte w k :=
    m.byteAt_setWord_of_within hin hk
  have hfirst : (m.setWord a w).byteAt a = Word.byte w 0 := hbyte 0 (by omega)
  rw [wordAt, hfirst, hbyte 1 (by omega), hbyte 2 (by omega), hbyte 3 (by omega),
    Word.ofBytes_bytes hw]

theorem byte_wordAt {k : Nat} (a : Nat) (hk : k < 4) :
    Word.byte (m.wordAt a) k = m.byteAt (a + k) := by
  have hbytes := Word.bytes_ofBytes (m.byteAt a) (m.byteAt (a + 1)) (m.byteAt (a + 2))
    (m.byteAt (a + 3))
  have hcases : k = 0 ∨ k = 1 ∨ k = 2 ∨ k = 3 := by omega
  simp only [Word.bytes, List.cons.injEq] at hbytes
  rcases hcases with rfl | rfl | rfl | rfl
  · exact hbytes.1
  · exact hbytes.2.1
  · exact hbytes.2.2.1
  · exact hbytes.2.2.2.1

theorem wordAt_lt (a : Nat) : m.wordAt a < Word.count := Word.ofBytes_lt _ _ _ _

theorem byteAt_of_size_le {i : Nat} (h : m.size ≤ i) : m.byteAt i = 0 := by
  rw [byteAt, Array.getD_eq_getD_getElem?, Array.getElem?_eq_none h]
  rfl

theorem byteAt_allocateWord (i : Nat) : m.allocateWord.byteAt i = m.byteAt i := by
  by_cases hi : i < m.size
  · have hi' : i < m.bytes.size := hi
    simp [byteAt, allocateWord, Array.getElem?_append_left hi']
  · have hle : m.size ≤ i := Nat.not_lt.mp hi
    rw [m.byteAt_of_size_le hle]
    by_cases hnew : i < m.size + 4
    · have hcases : i - m.bytes.size = 0 ∨ i - m.bytes.size = 1 ∨ i - m.bytes.size = 2 ∨
          i - m.bytes.size = 3 := by
        change i - m.size = 0 ∨ i - m.size = 1 ∨ i - m.size = 2 ∨ i - m.size = 3
        omega
      rw [byteAt, allocateWord, Array.getD_eq_getD_getElem?, Array.getElem?_append_right hle]
      rcases hcases with h | h | h | h <;> rw [h] <;> rfl
    · exact byteAt_of_size_le _ (by rw [size_allocateWord]; omega)

/-! ## Accesses -/

theorem readWord_eq (a : Nat) :
    m.readWord a = if a + 4 ≤ m.size then .ok (m.wordAt a) else .error ⟨.readWord, a, m.size⟩ := by
  unfold readWord check
  by_cases h : a + 4 ≤ m.size
  · simp [Access.width, h, bind, Except.bind, pure, Except.pure]
  · simp [Access.width, h, bind, Except.bind]

theorem readByte_eq (a : Nat) :
    m.readByte a = if a < m.size then .ok (m.byteAt a).toNat else .error ⟨.readByte, a, m.size⟩ := by
  unfold readByte check
  by_cases h : a + 1 ≤ m.size
  · simp [Access.width, h, Nat.lt_of_succ_le h, bind, Except.bind, pure, Except.pure]
  · simp [Access.width, h, mt Nat.succ_le_of_lt h, bind, Except.bind]

theorem writeWord_eq (a : Nat) (v : Int) :
    m.writeWord a v = if a + 4 ≤ m.size then .ok (m.setWord a (Word.ofInt v))
      else .error ⟨.writeWord, a, m.size⟩ := by
  unfold writeWord check
  by_cases h : a + 4 ≤ m.size
  · simp [Access.width, h, bind, Except.bind, pure, Except.pure]
  · simp [Access.width, h, bind, Except.bind]

theorem writeByte_eq (a : Nat) (v : Int) :
    m.writeByte a v = if a < m.size then .ok (m.setByte a (Word.byte (Word.ofInt v) 3))
      else .error ⟨.writeByte, a, m.size⟩ := by
  unfold writeByte check
  by_cases h : a + 1 ≤ m.size
  · simp [Access.width, h, Nat.lt_of_succ_le h, bind, Except.bind, pure, Except.pure]
  · simp [Access.width, h, mt Nat.succ_le_of_lt h, bind, Except.bind]

end Memory

end BrownLang
