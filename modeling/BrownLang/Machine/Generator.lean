/-!
# Random numbers

A generator is asked for a number in a range.  A scripted one answers the
numbers of a list, whatever the range, and the lower end when the list is used
up; it remembers what it was asked.  Any other has a state, coded as a number,
and a function from the state and the range to the answer and the next state.
-/

namespace BrownLang

inductive Generator where
  /-- `asked` holds the ranges asked for, the latest first. -/
  | scripted (rest : List Nat) (asked : List (Nat × Nat))
  | computed (next : Nat → Nat → Nat → Nat × Nat) (state : Nat)

namespace Generator

def requests : Generator → List (Nat × Nat)
  | scripted _ asked => asked.reverse
  | computed .. => []

def draw (low high : Nat) : Generator → Nat × Generator
  | scripted [] asked => (low, scripted [] ((low, high) :: asked))
  | scripted (v :: rest) asked => (v, scripted rest ((low, high) :: asked))
  | computed next state =>
    let (v, state') := next low high state
    (v, computed next state')

end Generator

end BrownLang
