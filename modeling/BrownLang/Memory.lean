import BrownLang.Word

/-!
# Memory

Memory is a string of bytes that grows at its end, one word at a time, and
never shrinks.  Bytes and words are read and written at any address where all
of their bytes exist.
-/

namespace BrownLang

inductive Access where
  | readWord
  | readByte
  | writeWord
  | writeByte
  deriving DecidableEq, Repr

/-- An access at `index` that does not fit in a memory of `length` bytes. -/
structure OutOfBounds where
  access : Access
  index : Nat
  length : Nat
  deriving DecidableEq, Repr

namespace Access

def width : Access → Nat
  | readWord | writeWord => 4
  | readByte | writeByte => 1

def verb : Access → String
  | readWord | readByte => "read"
  | writeWord | writeByte => "write"

def faultTitle : Access → String
  | readWord => "U32ReadOutOfBounds"
  | readByte => "U8ReadOutOfBounds"
  | writeWord => "U32WriteOutOfBounds"
  | writeByte => "U8WriteOutOfBounds"

end Access

def OutOfBounds.message (e : OutOfBounds) : String :=
  s!"{e.access.width}-byte {e.access.verb} at index {e.index} " ++
    s!"is outside memory of length {e.length}"

structure Memory where
  bytes : Array UInt8
  deriving DecidableEq, Repr, Inhabited

namespace Memory

def ofList (bs : List UInt8) : Memory := ⟨bs.toArray⟩

def toList (m : Memory) : List UInt8 := m.bytes.toList

def size (m : Memory) : Nat := m.bytes.size

/-- The byte at `i`, zero outside memory. -/
def byteAt (m : Memory) (i : Nat) : UInt8 := m.bytes.getD i 0

def wordAt (m : Memory) (i : Nat) : Nat :=
  Word.ofBytes (m.byteAt i) (m.byteAt (i + 1)) (m.byteAt (i + 2)) (m.byteAt (i + 3))

/-- Writes a byte without a check; outside memory nothing happens. -/
def setByte (m : Memory) (i : Nat) (b : UInt8) : Memory := ⟨m.bytes.setIfInBounds i b⟩

def setWord (m : Memory) (i w : Nat) : Memory :=
  (((m.setByte i (Word.byte w 0)).setByte (i + 1) (Word.byte w 1)).setByte (i + 2)
    (Word.byte w 2)).setByte (i + 3) (Word.byte w 3)

def check (m : Memory) (access : Access) (i : Nat) : Except OutOfBounds Unit :=
  if i + access.width ≤ m.size then .ok () else .error ⟨access, i, m.size⟩

def readByte (m : Memory) (i : Nat) : Except OutOfBounds Nat := do
  m.check .readByte i
  return (m.byteAt i).toNat

def readWord (m : Memory) (i : Nat) : Except OutOfBounds Nat := do
  m.check .readWord i
  return m.wordAt i

def writeByte (m : Memory) (i : Nat) (v : Int) : Except OutOfBounds Memory := do
  m.check .writeByte i
  return m.setByte i (Word.byte (Word.ofInt v) 3)

def writeWord (m : Memory) (i : Nat) (v : Int) : Except OutOfBounds Memory := do
  m.check .writeWord i
  return m.setWord i (Word.ofInt v)

/-- The `n` bytes from `i` on.  If they do not fit, the first that is missing is the error. -/
def readBytes (m : Memory) (i n : Nat) : Except OutOfBounds (List UInt8) :=
  if i + n ≤ m.size then .ok (m.bytes.extract i (i + n)).toList
  else .error ⟨.readByte, max i m.size, m.size⟩

def allocateWord (m : Memory) : Memory := ⟨m.bytes ++ #[0, 0, 0, 0]⟩

/-! ## Bytes after a change -/

@[simp] theorem size_setByte (m : Memory) (i : Nat) (b : UInt8) :
    (m.setByte i b).size = m.size := by
  simp [setByte, size]

@[simp] theorem size_setWord (m : Memory) (i w : Nat) : (m.setWord i w).size = m.size := by
  simp [setWord]

@[simp] theorem size_allocateWord (m : Memory) : m.allocateWord.size = m.size + 4 := by
  simp [allocateWord, size]

theorem byteAt_setByte (m : Memory) (i j : Nat) (b : UInt8) :
    (m.setByte i b).byteAt j = if i = j ∧ j < m.size then b else m.byteAt j := by
  unfold byteAt setByte size
  simp only [Array.getD_eq_getD_getElem?, Array.getElem?_setIfInBounds]
  by_cases h : i = j
  · subst h
    by_cases hi : i < m.bytes.size <;> simp [hi]
  · simp [h]

end Memory

end BrownLang
