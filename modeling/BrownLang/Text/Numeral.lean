/-!
# Numerals

Reading digits in a base, and writing numbers in decimal or hexadecimal,
padded on the left to a least width.  The host reads and writes decimal numbers
of limited length only.
-/

namespace BrownLang.Text

def digitValue (c : Char) : Nat :=
  if '0' ≤ c ∧ c ≤ '9' then c.toNat - '0'.toNat
  else if 'a' ≤ c ∧ c ≤ 'f' then c.toNat - 'a'.toNat + 10
  else c.toNat - 'A'.toNat + 10

def ofDigits (base : Nat) (ds : List Char) : Nat :=
  ds.foldl (fun n c => n * base + digitValue c) 0

def padLeft (width : Nat) (fill : Char) (s : String) : String :=
  String.ofList (List.replicate (width - s.length) fill) ++ s

def decimal (n : Nat) : String := String.ofList (Nat.toDigits 10 n)

/-- The most decimal digits that the host reads as a number, or writes for one. -/
def digitLimit : Nat := 4300

/--
The number that digits write, if the host can read them and write the number in
decimal.  It reads digits of any other base without a limit.
-/
def convert? (base : Nat) (ds : List Char) : Option Nat :=
  let n := ofDigits base ds
  if base = 10 ∧ digitLimit < ds.length ∨ digitLimit < (decimal n).length then none else some n

def zeroPadded (width n : Nat) : String := padLeft width '0' (decimal n)

def hexadecimal (width n : Nat) : String := padLeft width '0' (String.ofList (Nat.toDigits 16 n))

end BrownLang.Text
