/-!
# The lines of a text as a reader sees them

A text viewer ends a line at every line boundary of Unicode, not only at a
line feed.  `lines` lists the lines in that sense; a boundary at the very end
of the text starts no further line.
-/

namespace BrownLang.Text

/--
The characters that end a line.  A carriage return and the line feed after it
end one line together.
-/
def endsLine (c : Char) : Bool :=
  let n := c.toNat
  (0x0A ≤ n && n ≤ 0x0D) || (0x1C ≤ n && n ≤ 0x1E) || n == 0x85 || n == 0x2028 || n == 0x2029

/-- The lines of a text whose current line already holds the characters `current`, latest first. -/
def linesFrom (current : List Char) : List Char → List (List Char)
  | [] => if current.isEmpty then [] else [current.reverse]
  | '\r' :: '\n' :: rest => current.reverse :: linesFrom [] rest
  | c :: rest =>
    if endsLine c then current.reverse :: linesFrom [] rest else linesFrom (c :: current) rest

def lines (cs : List Char) : List (List Char) := linesFrom [] cs

def unifyLineEnds : List Char → List Char
  | [] => []
  | '\r' :: '\n' :: rest => '\n' :: unifyLineEnds rest
  | c :: rest => (if c = '\r' then '\n' else c) :: unifyLineEnds rest

end BrownLang.Text
