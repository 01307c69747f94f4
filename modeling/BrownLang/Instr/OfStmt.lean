import BrownLang.Instr
import BrownLang.Stmt
import BrownLang.Text.Numeral

/-!
# From statements to instructions

Lowering turns nested statements into a flat list with labels and jumps.  The
labels it makes are numbered from zero on in the order in which they are
needed; `labelCount` says how many a statement takes.  All instructions made
from a statement, apart from those of the statements in it, have its location.
-/

namespace BrownLang

/-- The name of a label that lowering makes.  No name in a source text has a dollar sign. -/
def madeLabel (k : Nat) : String := "$internal_" ++ Text.decimal k

namespace Stmt

mutual

def labelCount : Stmt → Nat
  | assign .. | goto .. | label .. | eval .. => 0
  | forLoop _ _ _ body _ => labelCountAll body + 2
  | whileLoop _ body _ => labelCountAll body + 2
  | ifThen _ yes _ => labelCountAll yes + 1
  | ifElse _ yes no _ => labelCountAll yes + labelCountAll no + 2
  | function _ _ _ body _ => labelCountAll body

def labelCountAll : List Stmt → Nat
  | [] => 0
  | s :: rest => labelCount s + labelCountAll rest

end

mutual

def lower (k : Nat) : Stmt → Code
  | assign t e l => [⟨.assign t e, l⟩]
  | goto x l => [⟨.goto x, l⟩]
  | label x l => [⟨.label x, l⟩]
  | eval e l => [⟨.eval e, l⟩]
  | ifThen c yes l =>
    ⟨.jumpFalse c (madeLabel k), l⟩ :: lowerAll (k + 1) yes ++ [⟨.label (madeLabel k), l⟩]
  | ifElse c yes no l =>
    let exit := k + 1 + labelCountAll yes
    ⟨.jumpFalse c (madeLabel k), l⟩ :: lowerAll (k + 1) yes ++
      (⟨.goto (madeLabel exit), l⟩ :: ⟨.label (madeLabel k), l⟩ :: lowerAll (exit + 1) no) ++
      [⟨.label (madeLabel exit), l⟩]
  | whileLoop c body l =>
    ⟨.label (madeLabel k), l⟩ :: ⟨.jumpFalse c (madeLabel (k + 1)), l⟩ ::
      lowerAll (k + 2) body ++ [⟨.goto (madeLabel k), l⟩, ⟨.label (madeLabel (k + 1)), l⟩]
  | forLoop x a b body l =>
    ⟨.assign (.var x) a, l⟩ :: ⟨.label (madeLabel k), l⟩ ::
      ⟨.jumpFalse (.bin (.known .lt) (.var x) b) (madeLabel (k + 1)), l⟩ ::
      lowerAll (k + 2) body ++
      [⟨.assign (.var x) (.bin (.known .add) (.var x) (.lit 1)), l⟩,
        ⟨.goto (madeLabel k), l⟩, ⟨.label (madeLabel (k + 1)), l⟩]
  | function f ps keep body l =>
    ⟨.funEntry f ps keep, l⟩ :: lowerAll k body ++ [⟨.funReturn, l⟩]

def lowerAll (k : Nat) : List Stmt → Code
  | [] => []
  | s :: rest => lower k s ++ lowerAll (k + labelCount s) rest

end

end Stmt

def Code.ofBlock (b : Block) : Code := Stmt.lowerAll 0 b

end BrownLang
