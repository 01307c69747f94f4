import BrownLang.Expr.Render
import BrownLang.Instr

/-!
# Code listings

A listing has one line for each instruction: its index, right-aligned, two
blanks, and the instruction.  Labels, functions and returns start at once;
all other instructions are indented by four blanks.
-/

namespace BrownLang

def Instr.render : Instr → String
  | assign t e => "    " ++ e.render ++ " -> " ++ t.render
  | goto l => "    goto " ++ l
  | label l => l ++ ":"
  | jumpFalse c l => "    if not " ++ c.render ++ ": goto " ++ l
  | funEntry f ps keep =>
    "fun " ++ f ++ "(" ++ ", ".intercalate ps ++ ")" ++ (if keep then " preserve" else "")
  | funReturn => "return"
  | eval e => "    " ++ e.render

namespace Code

def listingFrom (width i : Nat) : List Instr → List String
  | [] => []
  | x :: rest =>
    (Text.padLeft width ' ' (Text.decimal i) ++ "  " ++ x.render) :: listingFrom width (i + 1) rest

/-- The listing of some code; indexes are as wide as the last. -/
def listing (code : Code) : String :=
  let width := (Text.decimal (code.length - 1)).length
  "\n".intercalate (listingFrom width 0 code.instrs)

end Code

end BrownLang
