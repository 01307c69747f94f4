import BrownLang.Expr
import BrownLang.Location

/-!
# Instructions

The code that is executed is a list of instructions, each with the location of
the statement it was made from.  Labels are names; `BrownLang.Program` says
where they are.
-/

namespace BrownLang

/-- `jumpFalse e l` goes to `l` if `e` is zero. -/
inductive Instr where
  | assign (target : Target) (value : Expr)
  | goto (label : String)
  | label (name : String)
  | jumpFalse (cond : Expr) (label : String)
  | funEntry (name : String) (params : List String) (preserve : Bool)
  | funReturn
  | eval (e : Expr)
  deriving DecidableEq, Inhabited

namespace Instr

def rule : Instr → String
  | assign .. => "Assign"
  | goto _ => "Goto"
  | label _ => "Label"
  | jumpFalse .. => "JumpFalse"
  | funEntry .. => "FunEntry"
  | funReturn => "FunReturn"
  | eval _ => "Eval"

def defines? : Instr → Option String
  | label x | funEntry x _ _ => some x
  | _ => none

end Instr

structure CodeLine where
  instr : Instr
  loc : Option Location
  deriving DecidableEq, Inhabited

abbrev Code := List CodeLine

def Code.instrs (code : Code) : List Instr := code.map CodeLine.instr

end BrownLang
