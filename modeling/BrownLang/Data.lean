/-!
# The data section

A data section is a list of labels and byte strings.  Its segment is all the
bytes in order, and the table of its labels: a label stands for the number of
bytes before it.
-/

namespace BrownLang

inductive DataItem where
  | label (name : String)
  | bytes (data : List UInt8)
  deriving DecidableEq, Repr, Inhabited

structure DataSegment where
  bytes : List UInt8
  labels : List (String × Nat)
  deriving DecidableEq, Repr

namespace DataSegment

/-- The segment of `items` that stand after `size` bytes and the labels `seen`. -/
def ofItemsAfter (size : Nat) (seen : List (String × Nat)) :
    List DataItem → Except String DataSegment
  | [] => .ok ⟨[], []⟩
  | .label x :: rest =>
    if (seen.lookup x).isSome then .error x
    else do
      let d ← ofItemsAfter size ((x, size) :: seen) rest
      return { d with labels := (x, size) :: d.labels }
  | .bytes bs :: rest => do
    let d ← ofItemsAfter (size + bs.length) seen rest
    return { d with bytes := bs ++ d.bytes }

def ofItems (items : List DataItem) : Except String DataSegment := ofItemsAfter 0 [] items

end DataSegment

end BrownLang
