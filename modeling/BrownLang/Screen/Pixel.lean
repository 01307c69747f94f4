import BrownLang.Word

/-!
# Pixels

A pixel has three colour channels and a coverage channel, a byte each.
-/

namespace BrownLang

structure Pixel where
  red : UInt8
  green : UInt8
  blue : UInt8
  alpha : UInt8
  deriving DecidableEq, Repr, Inhabited

namespace Pixel

def transparent : Pixel := ⟨0, 0, 0, 0⟩

/--
The pixel that a colour number stands for: red in the top byte of its low 32
bits, alpha in the lowest.
-/
def ofColor (c : Int) : Pixel :=
  let w := Word.ofInt c
  ⟨Word.byte w 0, Word.byte w 1, Word.byte w 2, Word.byte w 3⟩

/-- A source channel over a destination channel, weighted by the coverage `a` of the source. -/
def mix (a s d : UInt8) : UInt8 :=
  UInt8.ofNat ((a.toNat * s.toNat + (255 - a.toNat) * d.toNat) / 255)

def cover (a d : UInt8) : UInt8 :=
  UInt8.ofNat (min (a.toNat + d.toNat * (255 - a.toNat) / 255) 255)

def blend (src dst : Pixel) : Pixel :=
  ⟨mix src.alpha src.red dst.red, mix src.alpha src.green dst.green,
    mix src.alpha src.blue dst.blue, cover src.alpha dst.alpha⟩

end Pixel

end BrownLang
