/-!
# Words

Values are 32-bit words, written as natural numbers.  In memory a word is four
bytes, the highest first.
-/

namespace BrownLang.Word

abbrev count : Nat := 0x100000000

/-- The low 32 bits of an integer, in two's complement. -/
def ofInt (v : Int) : Nat := (v % 0x100000000).toNat

theorem ofInt_lt (v : Int) : ofInt v < count := by
  unfold ofInt count
  omega

theorem ofInt_natCast {n : Nat} (h : n < count) : ofInt n = n := by
  unfold count at h
  unfold ofInt
  omega

def signed (v : Int) : Int := v.bmod 0x100000000

/-- The byte `k` of a word; byte 0 is the highest. -/
def byte (w k : Nat) : UInt8 := UInt8.ofNat (w >>> (24 - 8 * k))

def bytes (w : Nat) : List UInt8 := [byte w 0, byte w 1, byte w 2, byte w 3]

def ofBytes (a b c d : UInt8) : Nat :=
  ((a.toNat * 256 + b.toNat) * 256 + c.toNat) * 256 + d.toNat

theorem ofBytes_lt (a b c d : UInt8) : ofBytes a b c d < count := by
  have ha := a.toNat_lt
  have hb := b.toNat_lt
  have hc := c.toNat_lt
  have hd := d.toNat_lt
  unfold ofBytes count
  omega

end BrownLang.Word
