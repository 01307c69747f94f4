import BrownLang.Text.Quoted

/-!
# Trees and their layout

A tree of named nodes, lists and leaves is written on one line if it fits, and
otherwise over several, one item or field a line.  A long string of bytes is
cut into pieces, each a line of its own.
-/

namespace BrownLang

inductive Tree where
  | atom (text : String)
  | string (s : String)
  | bytes (bs : List UInt8)
  | list (items : List Tree)
  | node (name : String) (fields : List (String × Tree))
  deriving Inhabited

namespace Tree

def ofNat (n : Nat) : Tree := atom (Text.decimal n)

def ofBool (b : Bool) : Tree := atom (if b then "True" else "False")

def absent : Tree := atom "None"

/-! ## On one line -/

mutual

def inline : Tree → String
  | atom t => t
  | string s => Text.quoted s
  | bytes bs => Text.quotedBytes bs
  | list items => "[" ++ inlineItems items ++ "]"
  | node name fields => name ++ "(" ++ inlineFields fields ++ ")"

def inlineItems : List Tree → String
  | [] => ""
  | [x] => inline x
  | x :: xs => inline x ++ ", " ++ inlineItems xs

def inlineFields : List (String × Tree) → String
  | [] => ""
  | [(k, x)] => k ++ "=" ++ inline x
  | (k, x) :: fields => k ++ "=" ++ inline x ++ ", " ++ inlineFields fields

end

/-! ## Over several lines -/

def pageWidth : Nat := 80

def lineBreak (indent : Nat) : String := "\n" ++ String.ofList (List.replicate indent ' ')

def groupsOfFour {α : Type} : List α → List (List α)
  | a :: b :: c :: d :: rest => [a, b, c, d] :: groupsOfFour rest
  | [] => []
  | rest => [rest]

/--
Joins groups of bytes into pieces as long as fit in `width` characters.  Only a
last group of fewer than four bytes leaves room for `allowance` more.
-/
def packFrom (width allowance : Nat) (current : List UInt8) :
    List (List UInt8) → List (List UInt8)
  | [] => if current.isEmpty then [] else [current]
  | g :: rest =>
    let room := if g.length < 4 then width - allowance else width
    if room < (Text.quotedBytes (current ++ g)).length then
      if current.isEmpty then packFrom width allowance g rest
      else current :: packFrom width allowance g rest
    else packFrom width allowance (current ++ g) rest

def layoutBytes (indent allowance : Nat) (bs : List UInt8) : String :=
  if bs.length ≤ 4 then Text.quotedBytes bs
  else
    let pieces := packFrom (pageWidth - indent) allowance [] (groupsOfFour bs)
    (lineBreak indent).intercalate (pieces.map Text.quotedBytes)

mutual

/--
A tree that starts in the column `indent` and after whose end `allowance` more
characters stand on the same line.
-/
def layout (indent allowance : Nat) (t : Tree) : String :=
  let line := t.inline
  if line.length ≤ pageWidth - indent - allowance then line
  else
    match t with
    | atom t => t
    | string s => Text.quoted s
    | bytes bs => layoutBytes indent allowance bs
    | list items => "[" ++ layoutItems (indent + 1) (allowance + 1) items ++ "]"
    | node name fields =>
      name ++ "(" ++ layoutFields (indent + name.length + 1) allowance fields ++ ")"

def layoutItems (indent allowance : Nat) : List Tree → String
  | [] => ""
  | [x] => layout indent allowance x
  | x :: xs => layout indent 1 x ++ "," ++ lineBreak indent ++ layoutItems indent allowance xs

def layoutFields (indent allowance : Nat) : List (String × Tree) → String
  | [] => ""
  | [(k, x)] => k ++ "=" ++ layout (indent + k.length + 1) allowance x
  | (k, x) :: fields =>
    k ++ "=" ++ layout (indent + k.length + 1) 1 x ++ "," ++ lineBreak indent ++
      layoutFields indent allowance fields

end

end Tree

end BrownLang
