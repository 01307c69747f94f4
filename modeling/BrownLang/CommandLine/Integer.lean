import BrownLang.Text.Blank
import BrownLang.Text.Numeral

/-!
# Integers on the command line

An integer is a run of decimal digits of ASCII, with a sign in front if need be
and white space around it.  Single underscores may stand between digits, of
which there are no more than the host reads.
-/

namespace BrownLang.CommandLine

/-- Reads digits with single underscores between them; `n` is the value of those read already. -/
def digitsFrom (n : Nat) : List Char → Option Nat
  | [] => some n
  | '_' :: c :: rest =>
    if c.isDigit then digitsFrom (n * 10 + Text.digitValue c) rest else none
  | c :: rest => if c.isDigit then digitsFrom (n * 10 + Text.digitValue c) rest else none

def natural? (cs : List Char) : Option Nat :=
  if Text.digitLimit < (cs.filter Char.isDigit).length then none
  else
    match cs with
    | [] => none
    | c :: rest => if c.isDigit then digitsFrom (Text.digitValue c) rest else none

def integer? (s : String) : Option Int :=
  match Text.strip s.toList with
  | '-' :: cs => (natural? cs).map fun n => -(n : Int)
  | '+' :: cs => (natural? cs).map Int.ofNat
  | cs => (natural? cs).map Int.ofNat

def isNegativeNumber (s : String) : Bool :=
  match s.toList with
  | '-' :: cs =>
    match cs.dropWhile Char.isDigit with
    | [] => !cs.isEmpty
    | '.' :: ds => !ds.isEmpty && ds.all Char.isDigit
    | _ => false
  | _ => false

end BrownLang.CommandLine
