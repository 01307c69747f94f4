import BrownLang.Proofs.Execution.Call

/-!
# Structured programs, executed as they are written

A program is structured if it has no labels and no jumps, and no function
inside another.  Such a program can be executed without any code: a statement
is an action on memory, variables, output, drawing and random numbers, and a
call executes the body of a function.

Loops and calls can go on for ever here too, so there is a bound on both: on
the iterations of each loop, and on how deep calls are nested.
-/

namespace BrownLang

/-! ## Structured programs -/

namespace Stmt

mutual

/-- Whether a statement, which may be part of a function, is structured. -/
def structured (inFunction : Bool) : Stmt → Bool
  | assign .. | eval .. => true
  | forLoop _ _ _ body _ | whileLoop _ body _ | ifThen _ body _ => structuredAll inFunction body
  | ifElse _ yes no _ => structuredAll inFunction yes && structuredAll inFunction no
  | function _ _ _ body _ => !inFunction && structuredAll true body
  | goto .. | label .. => false

def structuredAll (inFunction : Bool) : List Stmt → Bool
  | [] => true
  | s :: rest => structured inFunction s && structuredAll inFunction rest

end

end Stmt

structure Definition where
  name : String
  params : List String
  preserve : Bool
  body : Block

namespace Stmt

mutual

def functions : Stmt → List Definition
  | forLoop _ _ _ body _ | whileLoop _ body _ | ifThen _ body _ => functionsAll body
  | ifElse _ yes no _ => functionsAll yes ++ functionsAll no
  | function f ps keep body _ => [⟨f, ps, keep, body⟩]
  | assign .. | eval .. | goto .. | label .. => []

def functionsAll : List Stmt → List Definition
  | [] => []
  | s :: rest => functions s ++ functionsAll rest

end

end Stmt

/-! ## Statements -/

def Exec.repeatWhile (test : Exec Bool) (body : Exec Unit) : Nat → Exec Unit
  | 0 => throw .unfinished
  | n + 1 => do
    if ← test then
      body
      repeatWhile test body n
    else pure ()

namespace Stmt

def test (call : Caller) (c : Expr) : Exec Bool := do
  let v ← c.eval call
  pure (v ≠ 0)

def countsOn (call : Caller) (x : String) (bound : Expr) : Exec Bool := do
  let i ← Exec.readVar x
  let last ← bound.eval call
  pure (i < last)

def countUp (x : String) : Exec Unit := do
  let i ← Exec.readVar x
  Exec.writeVar x (i + 1)

mutual

/-- Executes a statement, each loop in fewer than `n` iterations.  Jumps have no meaning here. -/
def exec (call : Caller) (n : Nat) : Stmt → Exec Unit
  | assign t e _ => do
    let v ← e.eval call
    t.store call v
  | eval e _ => do
    let _ ← e.eval call
    pure ()
  | ifThen c yes _ => do
    if ← test call c then execAll call n yes else pure ()
  | ifElse c yes no _ => do
    if ← test call c then execAll call n yes else execAll call n no
  | whileLoop c body _ => Exec.repeatWhile (test call c) (execAll call n body) n
  | forLoop x a b body _ => do
    let v ← a.eval call
    Exec.writeVar x v
    Exec.repeatWhile (countsOn call x b)
      (do
        execAll call n body
        countUp x) n
  | function _ _ _ body _ => execAll call n body
  | goto .. | label .. => pure ()

def execAll (call : Caller) (n : Nat) : List Stmt → Exec Unit
  | [] => pure ()
  | s :: rest => do
    exec call n s
    execAll call n rest

end

end Stmt

/-! ## Calls and programs -/

namespace Block

/-- Whether lowering has a label of that name, which then is no name of a function. -/
def reserves (b : Block) (x : String) : Bool :=
  (List.range (Stmt.labelCountAll b)).any fun k => x = madeLabel k

/--
Calls a function, a built-in one if there is one of that name.  A function of
the program is given its arguments, `body` executes what it consists of, and
the answer is the value of `ans`.
-/
def call (options : Options) (b : Block) (body : Block → Exec Unit) : Caller := fun f args =>
  match Builtin.ofName? f with
  | some builtin => builtin.invoke options.sink args
  | none =>
    match (Stmt.functionsAll b).find? (·.name = f) with
    | some d =>
      if options.strictArgs ∧ args.length ≠ d.params.length then
        Exec.fail (.arity f d.params.length args.length)
      else do
        let saved ← Machine.prepare d.params d.preserve args
        body d.body
        Machine.conclude d.params d.preserve saved
    | none =>
      if b.reserves f then Exec.fail (.notAFunction f) else Exec.fail (.functionNotFound f)

def caller (options : Options) (b : Block) : Nat → Caller
  | 0 => call options b fun _ => throw .unfinished
  | n + 1 => call options b (Stmt.execAll (caller options b n) n)

end Block

inductive Outcome where
  | exited (code : Nat)
  | failed (f : Fault)
  deriving DecidableEq, Repr

def Exec.Result.outcome? : EStateM.Result Halt State Unit → Option Outcome
  | .ok _ _ => some (.exited 0)
  | .error (.exit code) _ => some (.exited code)
  | .error (.fault f) _ => some (.failed f)
  | .error .unfinished _ => none

def Store.idle (w : Store) : State where
  memory := w.memory
  vars := w.vars
  canvas := w.canvas
  writes := w.writes
  generator := w.generator
  ip := 0
  journal := .empty 0
  calls := []
  nextFrame := 0
  exitCode := none

/-- Executes a program within the bound `n`: how it ended, if it did, and what has become of `w`. -/
def Block.run (options : Options) (b : Block) (n : Nat) (w : Store) : Option Outcome × Store :=
  let result := Stmt.execAll (caller options b n) n b w.idle
  (Exec.Result.outcome? result, (Exec.Result.state result).store)

end BrownLang
