import BrownLang.Proofs.Execution.Local
import BrownLang.Proofs.Memory.Bytes

/-!
# Accesses to memory agree

Bytes, words and blocks are read and written in ways of their own, each with its
own check.  A word is nevertheless just its four bytes, and a block the bytes in
it, at the end of memory too: what fails for the bytes fails for the whole.
-/

namespace BrownLang

namespace Memory

variable (m : Memory) (i : Nat) (v : Int)

/-! ## Words -/

def readWordByBytes : Except OutOfBounds Nat := do
  let a ← m.readByte i
  let b ← m.readByte (i + 1)
  let c ← m.readByte (i + 2)
  let d ← m.readByte (i + 3)
  return a * 0x1000000 + b * 0x10000 + c * 0x100 + d

def writeWordByBytes : Except OutOfBounds Memory := do
  let m₁ ← m.writeByte i (v >>> (24 : Nat))
  let m₂ ← m₁.writeByte (i + 1) (v >>> (16 : Nat))
  let m₃ ← m₂.writeByte (i + 2) (v >>> (8 : Nat))
  m₃.writeByte (i + 3) v

theorem wordAt_eq_sum : m.wordAt i =
    (m.byteAt i).toNat * 0x1000000 + (m.byteAt (i + 1)).toNat * 0x10000 +
      (m.byteAt (i + 2)).toNat * 0x100 + (m.byteAt (i + 3)).toNat := by
  unfold wordAt Word.ofBytes
  omega

theorem toOption_readWord : (m.readWord i).toOption = (m.readWordByBytes i).toOption := by
  simp only [readWordByBytes, readWord_eq, readByte_eq]
  by_cases h : i + 4 ≤ m.size
  · have h₀ : i < m.size := by omega
    have h₁ : i + 1 < m.size := by omega
    have h₂ : i + 2 < m.size := by omega
    have h₃ : i + 3 < m.size := by omega
    simp only [if_pos h, if_pos h₀, if_pos h₁, if_pos h₂, if_pos h₃, wordAt_eq_sum]
    rfl
  · -- The last of the four bytes is outside memory, whichever of them is the first to be.
    have h₃ : ¬ i + 3 < m.size := by omega
    rw [if_neg h, if_neg h₃]
    by_cases h₀ : i < m.size <;> by_cases h₁ : i + 1 < m.size <;> by_cases h₂ : i + 2 < m.size <;>
      simp [h₀, h₁, h₂, bind, Except.bind, Except.toOption]

theorem toOption_writeWord :
    (m.writeWord i v).toOption = (m.writeWordByBytes i v).toOption := by
  have hfirst : Word.byte (Word.ofInt (v >>> (24 : Nat))) 3 = Word.byte (Word.ofInt v) 0 :=
    Word.byte_ofInt_shiftRight v (k := 0) (by omega)
  have hsecond : Word.byte (Word.ofInt (v >>> (16 : Nat))) 3 = Word.byte (Word.ofInt v) 1 :=
    Word.byte_ofInt_shiftRight v (k := 1) (by omega)
  have hthird : Word.byte (Word.ofInt (v >>> (8 : Nat))) 3 = Word.byte (Word.ofInt v) 2 :=
    Word.byte_ofInt_shiftRight v (k := 2) (by omega)
  simp only [writeWordByBytes, writeWord_eq, writeByte_eq, hfirst, hsecond, hthird]
  by_cases h : i + 4 ≤ m.size
  · have h₀ : i < m.size := by omega
    have h₁ : i + 1 < m.size := by omega
    have h₂ : i + 2 < m.size := by omega
    have h₃ : i + 3 < m.size := by omega
    simp [h, h₀, h₁, h₂, h₃, bind, Except.bind, setWord]
  · have h₃ : ¬ i + 3 < m.size := by omega
    rw [if_neg h]
    by_cases h₀ : i < m.size <;> by_cases h₁ : i + 1 < m.size <;> by_cases h₂ : i + 2 < m.size <;>
      simp [h₀, h₁, h₂, h₃, bind, Except.bind, Except.toOption]

theorem readByte_setWord (hin : i + 4 ≤ m.size) (j : Nat) :
    (m.setWord i (Word.ofInt v)).readByte j =
      if i ≤ j ∧ j < i + 4 then .ok (v >>> (24 - 8 * (j - i)) % 256).toNat else m.readByte j := by
  rw [readByte_eq, readByte_eq, size_setWord]
  by_cases hj : i ≤ j ∧ j < i + 4
  · obtain ⟨k, rfl⟩ := Nat.exists_eq_add_of_le hj.1
    have hk : k < 4 := by omega
    have hsize : i + k < m.size := by omega
    rw [if_pos hsize, if_pos hj, m.byteAt_setWord_of_within hin hk, Nat.add_sub_cancel_left,
      ← Word.byte_ofInt_shiftRight v hk, Word.toNat_byte, Word.ofInt]
    congr 1
    omega
  · rw [if_neg hj, m.byteAt_setWord_of_apart _ (by omega)]

theorem shiftRight_of_readWord {j w k : Nat} (h : m.readWord j = .ok w) (hk : k < 4) :
    m.readByte (j + k) = .ok (w >>> (24 - 8 * k) % 256) := by
  rw [readWord_eq] at h
  split at h
  next hin =>
    cases h
    have hsize : j + k < m.size := by omega
    rw [readByte_eq, if_pos hsize, ← m.byte_wordAt j hk, Word.toNat_byte]
  next => cases h

theorem readWord_setWord (hin : i + 4 ≤ m.size) {j w : Nat} (h : m.readWord j = .ok w) :
    ∃ w', (m.setWord i (Word.ofInt v)).readWord j = .ok w' ∧ ∀ k < 4,
      w' >>> (24 - 8 * k) % 256 =
        if i ≤ j + k ∧ j + k < i + 4 then (v >>> (24 - 8 * (j + k - i)) % 256).toNat
        else w >>> (24 - 8 * k) % 256 := by
  have hread : (m.setWord i (Word.ofInt v)).readWord j =
      .ok ((m.setWord i (Word.ofInt v)).wordAt j) := by
    rw [readWord_eq] at h
    split at h
    next hj => rw [readWord_eq, size_setWord, if_pos hj]
    next => cases h
  refine ⟨_, hread, fun k hk => ?_⟩
  have hnew := shiftRight_of_readWord _ hread hk
  rw [m.readByte_setWord i v hin] at hnew
  split at hnew
  next hwithin =>
    rw [if_pos hwithin]
    exact (Except.ok.inj hnew).symm
  next hapart =>
    rw [if_neg hapart]
    rw [m.shiftRight_of_readWord h hk] at hnew
    exact (Except.ok.inj hnew).symm

/-! ## Blocks -/

theorem mapM_readByte (n : Nat) :
    (List.range' i n).mapM m.readByte =
      if n = 0 ∨ i + n ≤ m.size then .ok ((List.range' i n).map fun j => (m.byteAt j).toNat)
      else .error ⟨.readByte, max i m.size, m.size⟩ := by
  induction n generalizing i with
  | zero => rfl
  | succ n ih =>
      rw [List.range'_succ, List.mapM_cons, readByte_eq, ih]
      by_cases hi : i < m.size
      · by_cases hn : n = 0 ∨ i + 1 + n ≤ m.size
        · have hall : n + 1 = 0 ∨ i + (n + 1) ≤ m.size := by omega
          rw [if_pos hi, if_pos hn, if_pos hall]
          rfl
        · have hall : ¬ (n + 1 = 0 ∨ i + (n + 1) ≤ m.size) := by omega
          have hmax : max (i + 1) m.size = max i m.size := by omega
          rw [if_pos hi, if_neg hn, if_neg hall, hmax]
          rfl
      · have hall : ¬ (n + 1 = 0 ∨ i + (n + 1) ≤ m.size) := by omega
        have hmax : max i m.size = i := by omega
        rw [if_neg hi, if_neg hall, hmax]
        rfl

theorem toList_extract {n : Nat} (h : i + n ≤ m.size) :
    (m.bytes.extract i (i + n)).toList = (List.range' i n).map m.byteAt := by
  have hsize : i + n ≤ m.bytes.size := h
  apply List.ext_getElem
  · simp
    omega
  · intro k hk _
    simp at hk
    have hin : i + k < m.bytes.size := by omega
    simp [byteAt, hin]

theorem readBytes_of_le {n : Nat} (h : i + n ≤ m.size) :
    m.readBytes i n = .ok ((List.range' i n).map m.byteAt) := by
  rw [readBytes, if_pos h, m.toList_extract i h]

theorem readBytes_eq_mapM {n : Nat} (hn : 1 ≤ n) :
    (m.readBytes i n).map (·.map UInt8.toNat) = (List.range' i n).mapM m.readByte := by
  rw [mapM_readByte]
  by_cases h : i + n ≤ m.size
  · rw [m.readBytes_of_le i h, if_pos (.inr h), Except.map, List.map_map]
    rfl
  · have hall : ¬ (n = 0 ∨ i + n ≤ m.size) := by omega
    rw [readBytes, if_neg h, if_neg hall]
    rfl

end Memory

/-! ## Accesses of a running program -/

namespace State

variable (s : State)

/-- The result of reading memory: an error is a fault, and the state stays as it is. -/
def afterRead {α : Type} : Except OutOfBounds α → EStateM.Result Halt State α
  | .ok a => .ok a s
  | .error e => .error (.fault (.memory e)) s

def afterWrite : Except OutOfBounds Memory → EStateM.Result Halt State Unit
  | .ok m => .ok () { s with memory := m }
  | .error e => .error (.fault (.memory e)) s

end State

namespace Exec

variable (s : State) (a : Nat) (v : Int)

theorem lift_mapError {α : Type} (r : Except OutOfBounds α) :
    lift (r.mapError .memory) s = s.afterRead r := by
  cases r <;> rfl

theorem check_bind {α : Type} (access : Access) (f : Exec α) :
    (check access a >>= fun _ => f) s = match s.memory.check access a with
      | .ok _ => f s
      | .error e => .error (.fault (.memory e)) s := by
  have hcheck : check access a s = s.afterRead (s.memory.check access a) := lift_mapError s _
  rw [bind_apply, hcheck]
  cases s.memory.check access a <;> rfl

theorem readByte_eq : readByte a s = s.afterRead (s.memory.readByte a) := by
  rw [readByte, check_bind, Memory.readByte]
  cases s.memory.check .readByte a <;> rfl

theorem readWord_eq : readWord a s = s.afterRead (s.memory.readWord a) := by
  rw [readWord, check_bind, Memory.readWord]
  cases s.memory.check .readWord a <;> rfl

theorem writeByte_eq : writeByte a v s = s.afterWrite (s.memory.writeByte a v) := by
  rw [writeByte, check_bind, Memory.writeByte]
  cases s.memory.check .writeByte a <;> rfl

theorem writeWord_eq : writeWord a v s = s.afterWrite (s.memory.writeWord a v) := by
  rw [writeWord, check_bind, Memory.writeWord]
  cases s.memory.check .writeWord a <;> rfl

end Exec

namespace Memory

variable {m : Memory} {i : Nat} {v : Int}

theorem writeWord_eq_ok {m' : Memory} :
    m.writeWord i v = .ok m' ↔ i + 4 ≤ m.size ∧ m' = m.setWord i (Word.ofInt v) := by
  rw [writeWord_eq]
  split
  next h => simp [h, eq_comm]
  next h => simp [h]

theorem writeByte_eq_ok {m' : Memory} :
    m.writeByte i v = .ok m' ↔ i < m.size ∧ m' = m.setByte i (Word.byte (Word.ofInt v) 3) := by
  rw [writeByte_eq]
  split
  next h => simp [h, eq_comm]
  next h => simp [h]

/--
Reading or writing a word succeeds just if the four bytes of it can be read or
written, and does the same as these; what is written is the value modulo `2 ^ 32`, and
is seen by every word that shares bytes with it, and by nothing else.  A block
is read as its bytes are, with the error of the first of them that fails.  No
access changes the length of memory, and one that fails leaves a running program
in the state that it is in.
-/
theorem accesses_agree (m : Memory) (i : Nat) (v : Int) :
    (m.readWord i).toOption = (m.readWordByBytes i).toOption ∧
    (m.writeWord i v).toOption = (m.writeWordByBytes i v).toOption ∧
    ((∃ m', m.writeWord i v = .ok m') ↔
      ∀ k < 4, ∃ m', m.writeByte (i + k) (v >>> (24 - 8 * k)) = .ok m') ∧
    (∀ m', m.writeWord i v = .ok m' →
      m'.readWord i = .ok (v % 0x100000000).toNat ∧
      (∀ j, m'.readByte j =
        if i ≤ j ∧ j < i + 4 then .ok (v >>> (24 - 8 * (j - i)) % 256).toNat
        else m.readByte j) ∧
      ∀ j w, m.readWord j = .ok w → ∃ w', m'.readWord j = .ok w' ∧ ∀ k < 4,
        w' >>> (24 - 8 * k) % 256 =
          if i ≤ j + k ∧ j + k < i + 4 then (v >>> (24 - 8 * (j + k - i)) % 256).toNat
          else w >>> (24 - 8 * k) % 256) ∧
    (∀ n ≥ 1, (m.readBytes i n).map (·.map UInt8.toNat) = (List.range' i n).mapM m.readByte) ∧
    (∀ m', m.writeByte i v = .ok m' ∨ m.writeWord i v = .ok m' → m'.size = m.size) ∧
    ∀ s : State, s.memory = m →
      Exec.readByte i s = s.afterRead (m.readByte i) ∧
      Exec.readWord i s = s.afterRead (m.readWord i) ∧
      (∀ n, Exec.lift ((m.readBytes i n).mapError .memory) s = s.afterRead (m.readBytes i n)) ∧
      Exec.writeByte i v s = s.afterWrite (m.writeByte i v) ∧
      Exec.writeWord i v s = s.afterWrite (m.writeWord i v) := by
  refine ⟨m.toOption_readWord i, m.toOption_writeWord i v, ?bytes, ?written,
    fun n hn => m.readBytes_eq_mapM i hn, ?size, ?machine⟩
  case bytes =>
    simp only [writeWord_eq_ok, writeByte_eq_ok, exists_and_left, exists_eq, and_true]
    constructor
    · intro h k hk
      omega
    · intro h
      have hlast := h 3 (by omega)
      omega
  case written =>
    intro m' h
    obtain ⟨hin, rfl⟩ := writeWord_eq_ok.mp h
    refine ⟨?_, m.readByte_setWord i v hin, fun j w => m.readWord_setWord i v hin⟩
    rw [readWord_eq, size_setWord, if_pos hin, m.wordAt_setWord hin (Word.ofInt_lt v)]
    rfl
  case size =>
    rintro m' (h | h)
    · obtain ⟨-, rfl⟩ := writeByte_eq_ok.mp h
      exact m.size_setByte _ _
    · obtain ⟨-, rfl⟩ := writeWord_eq_ok.mp h
      exact m.size_setWord _ _
  case machine =>
    rintro s rfl
    exact ⟨Exec.readByte_eq s i, Exec.readWord_eq s i, fun n => Exec.lift_mapError s _,
      Exec.writeByte_eq s i v, Exec.writeWord_eq s i v⟩

theorem overlap_agrees :
    let m : Memory := ⟨#[1, 2, 3, 4, 5, 6, 7]⟩
    let m' : Memory := ⟨#[1, 2, 255, 255, 255, 254, 7]⟩
    m.writeWord 2 (-2) = .ok m' ∧ m'.readWord 2 = .ok 4294967294 ∧
      ∃ w, m'.readWord 0 = .ok w ∧ ∀ k < 4, w >>> (24 - 8 * k) % 256 =
        if 2 ≤ 0 + k ∧ 0 + k < 6 then ((-2 : Int) >>> (24 - 8 * (0 + k - 2)) % 256).toNat
        else 16909060 >>> (24 - 8 * k) % 256 := by
  intro m m'
  have hwrite : m.writeWord 2 (-2) = .ok m' := by rfl
  have hread : m.readWord 0 = .ok 16909060 := by cbv
  obtain ⟨-, -, -, hwritten, -⟩ := accesses_agree m 2 (-2)
  obtain ⟨hword, -, hshared⟩ := hwritten m' hwrite
  exact ⟨hwrite, hword, hshared 0 16909060 hread⟩

end Memory

end BrownLang
