import BrownLang.Expr
import BrownLang.Fault

/-!
# Arithmetic

What the operators compute.  Sums, differences, products and left shifts are
cut to 32 bits; the amount of a shift counts modulo 32; a comparison is one if
it holds and zero if not.
-/

namespace BrownLang

namespace Operator

/-- The value of an operator; there is none if the divisor is zero. -/
def eval? (o : Operator) (a b : Nat) : Option Nat :=
  match o with
  | or => some (a ||| b)
  | xor => some (a ^^^ b)
  | and => some (a &&& b)
  | eq => some (if a = b then 1 else 0)
  | ne => some (if a ≠ b then 1 else 0)
  | lt => some (if a < b then 1 else 0)
  | gt => some (if b < a then 1 else 0)
  | le => some (if a ≤ b then 1 else 0)
  | ge => some (if b ≤ a then 1 else 0)
  | shl => some (Word.ofInt (a <<< (b % 32) : Nat))
  | shr => some (a >>> (b % 32))
  | add => some (Word.ofInt (a + b))
  | sub => some (Word.ofInt (a - b))
  | mul => some (Word.ofInt (a * b))
  | div => if b = 0 then none else some (a / b)
  | mod => if b = 0 then none else some (a % b)

end Operator

def BinOp.apply (op : BinOp) (a b : Nat) : Except Fault Nat :=
  match op with
  | known o =>
    match o.eval? a b with
    | some v => .ok v
    | none => .error .divisionByZero
  | unknown s => .error (.unknownOperator s)

end BrownLang
