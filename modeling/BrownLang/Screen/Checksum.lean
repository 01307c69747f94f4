/-!
# Checksums

The cyclic redundancy check with the reflected polynomial `0xEDB88320`, and
the Adler checksum, both of 32 bits, as image files use them.
-/

namespace BrownLang.Checksum

/-- Divides the lowest bit out of a remainder. -/
def shift (c : UInt32) : UInt32 :=
  if c &&& 1 = 1 then (c >>> 1) ^^^ 0xEDB88320 else c >>> 1

def table : Array UInt32 :=
  Array.ofFn fun i : Fin 256 => Nat.repeat shift 8 (UInt32.ofNat i)

def advance (c : UInt32) (b : UInt8) : UInt32 :=
  table.getD ((c ^^^ b.toUInt32) &&& 0xFF).toNat 0 ^^^ (c >>> 8)

def crc32 (bytes : ByteArray) : UInt32 := bytes.foldl advance 0xFFFFFFFF ^^^ 0xFFFFFFFF

def adler32 (bytes : ByteArray) : UInt32 :=
  let (a, b) := bytes.foldl
    (fun ((a, b) : UInt32 × UInt32) x =>
      let a' := (a + x.toUInt32) % 65521
      (a', (b + a') % 65521))
    (1, 0)
  b <<< 16 ||| a

end BrownLang.Checksum
