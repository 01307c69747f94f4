import BrownLang.Machine.Arithmetic
import BrownLang.Machine.State

/-!
# Evaluating expressions

Operands and arguments are evaluated from left to right.  What a call does is
a parameter, so this is recursion on the expression alone.
-/

namespace BrownLang

abbrev Caller := String → List Nat → Exec Nat

namespace Expr

mutual

def eval (call : Caller) : Expr → Exec Nat
  | .lit n => pure n
  | .var x => Exec.readVar x
  | .addr x => Exec.addressOf x
  | .word a => do Exec.readWord (← eval call a)
  | .byte a => do Exec.readByte (← eval call a)
  | .bin op l r => do
    let a ← eval call l
    let b ← eval call r
    Exec.lift (op.apply a b)
  | .call f args => do
    let vs ← evalAll call args
    call f vs

def evalAll (call : Caller) : List Expr → Exec (List Nat)
  | [] => pure []
  | a :: rest => do
    let v ← eval call a
    let vs ← evalAll call rest
    pure (v :: vs)

end

end Expr

/-- Assigns a value.  The address of a word or byte is evaluated now. -/
def Target.store (call : Caller) (v : Nat) : Target → Exec Unit
  | .var x => Exec.writeVar x v
  | .word a => do Exec.writeWord (← a.eval call) v
  | .byte a => do Exec.writeByte (← a.eval call) v

end BrownLang
