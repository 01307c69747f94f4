/-!
# Line segments

The cells of a straight line between two cells.  The walk goes from one end to
the other, one cell at a time; the error term says which of the two
coordinates has to change next for the walk to stay near the line.
-/

namespace BrownLang

structure Segment where
  x₀ : Int
  y₀ : Int
  x₁ : Int
  y₁ : Int
  deriving DecidableEq, Repr

namespace Segment

structure Walker where
  x : Int
  y : Int
  err : Int
  deriving DecidableEq, Repr

variable (s : Segment)

def dx : Int := (s.x₁ - s.x₀).natAbs

/-- The height of the segment, taken negative. -/
def dy : Int := -(s.y₁ - s.y₀).natAbs

def sx : Int := if s.x₀ < s.x₁ then 1 else -1

def sy : Int := if s.y₀ < s.y₁ then 1 else -1

def start : Walker := ⟨s.x₀, s.y₀, s.dx + s.dy⟩

def next (w : Walker) : Walker :=
  let e := 2 * w.err
  let w' := if s.dy ≤ e then { w with x := w.x + s.sx, err := w.err + s.dy } else w
  if e ≤ s.dx then { w' with y := w'.y + s.sy, err := w'.err + s.dx } else w'

def length : Nat := max (s.x₁ - s.x₀).natAbs (s.y₁ - s.y₀).natAbs

variable {α : Type}

/-- Goes on to the end of the segment, at most `n` steps, and applies `f` at every cell. -/
def foldFrom (f : α → Int → Int → α) : Nat → Walker → α → α
  | 0, w, a => f a w.x w.y
  | n + 1, w, a =>
    if w.x = s.x₁ ∧ w.y = s.y₁ then f a w.x w.y
    else foldFrom f n (s.next w) (f a w.x w.y)

def fold (f : α → Int → Int → α) (a : α) : α := s.foldFrom f s.length s.start a

def cells : List (Int × Int) := (s.fold (fun cs x y => (x, y) :: cs) []).reverse

end Segment

end BrownLang
