import BrownLang.Instr.OfStmt
import BrownLang.Source

/-!
# Programs

A program is code and data, ready to be run: every name that is defined in the
code has its index in the label table, and every data label its offset.  No
name may be defined twice in the code, nor twice in the data.
-/

namespace BrownLang

/-- Names with their numbers, in order of definition; no name occurs twice. -/
abbrev Table := List (String × Nat)

def Table.ofCodeAfter (i : Nat) (seen : Table) : Code → Except String Table
  | [] => .ok []
  | line :: rest =>
    match line.instr.defines? with
    | none => ofCodeAfter (i + 1) seen rest
    | some x =>
      if (seen.lookup x).isSome then .error x
      else do
        let t ← ofCodeAfter (i + 1) ((x, i) :: seen) rest
        return (x, i) :: t

def Table.ofCode (code : Code) : Except String Table := ofCodeAfter 0 [] code

structure Program where
  code : Array CodeLine
  data : List UInt8
  labels : Table
  dataLabels : Table

namespace Program

/-- Puts a source together.  The error is a name that is defined twice; data labels come first. -/
def ofSource (s : Source) : Except String Program := do
  let d ← DataSegment.ofItems s.data
  let code := Code.ofBlock s.code
  let labels ← Table.ofCode code
  return ⟨code.toArray, d.bytes, labels, d.labels⟩

end Program

end BrownLang
