/-!
# Binary operators

The sixteen operators of the language, their symbols, and how tightly they
bind.  What they compute is in `BrownLang.Machine.Arithmetic`.
-/

namespace BrownLang

inductive Operator where
  | or | xor | and
  | eq | ne
  | lt | gt | le | ge
  | shl | shr
  | add | sub
  | mul | div | mod
  deriving DecidableEq, Repr

namespace Operator

def symbol : Operator → String
  | or => "|" | xor => "^" | and => "&"
  | eq => "==" | ne => "!="
  | lt => "<" | gt => ">" | le => "<=" | ge => ">="
  | shl => "<<" | shr => ">>"
  | add => "+" | sub => "-"
  | mul => "*" | div => "/" | mod => "%"

def all : List Operator :=
  [or, xor, and, eq, ne, lt, gt, le, ge, shl, shr, add, sub, mul, div, mod]

def ofSymbol? (s : String) : Option Operator := all.find? (·.symbol = s)

/--
How tightly an operator binds; a higher level binds tighter, and operators of
one level group to the left.
-/
def level : Operator → Nat
  | or => 0
  | xor => 1
  | and => 2
  | eq | ne => 3
  | lt | gt | le | ge => 4
  | shl | shr => 5
  | add | sub => 6
  | mul | div | mod => 7

end Operator

end BrownLang
