import BrownLang.Machine.Builtin
import BrownLang.Machine.Eval

/-!
# Running programs

A call of a function of the program sets its parameters, which are ordinary
variables, and executes instructions from the head of the function on until a
return instruction is next, of whatever function it is.  The answer is the
value of the variable `ans`.

Calls and loops can go on for ever, so running takes a number of steps that it
may use; `Halt.unfinished` says that they did not suffice.  More steps never
change a run that ended.

Calls may be nested as deep as the steps allow: the stack of the host has no end
here, and no run fails for want of it.
-/

namespace BrownLang

def returnVariable : String := "ans"

namespace Machine

variable (m : Machine)

def jump (l : String) : Exec Unit :=
  match m.program.labels.lookup l with
  | some i => Exec.jumpTo i
  | none => Exec.fail (.labelNotFound l)

def execute (call : Caller) : Instr → Exec Unit
  | .assign t e => do
    let v ← e.eval call
    t.store call v
  | .eval e => do
    let _ ← e.eval call
    pure ()
  | .goto l => m.jump l
  | .jumpFalse c l => do
    if (← c.eval call) = 0 then m.jump l
  | .label _ | .funEntry .. | .funReturn => pure ()

def step (call : Caller) : Exec Unit := do
  match m.program.code[(← get).ip]? with
  | none => pure ()
  | some line =>
    Exec.record m.options.verbose line
    m.execute call line.instr
    modify fun s => { s with ip := s.ip + 1 }

/-- Calls the function with the head at `entry`; `body` executes it up to a return. -/
def enter (body : Exec Unit) (f : String) (entry : Nat) (params : List String) (preserve : Bool)
    (args : List Nat) : Exec Nat := do
  let home := (← get).ip
  let saved ← if preserve then Exec.readVars params else pure []
  Exec.writeVars params args
  Exec.pushFrame f (m.program.code[home]?.bind CodeLine.loc)
  Exec.jumpTo entry
  body
  let result ← Exec.readVar returnVariable
  if preserve then Exec.writeVars params saved
  Exec.popFrame
  Exec.jumpTo home
  pure result

def callFunction (body : Exec Unit) (f : String) (args : List Nat) : Exec Nat :=
  match m.program.labels.lookup f with
  | none => Exec.fail (.functionNotFound f)
  | some entry =>
    match (m.program.code[entry]?).map CodeLine.instr with
    | some (.funEntry _ params preserve) =>
      if m.options.strictArgs ∧ args.length ≠ params.length then
        Exec.fail (.arity f params.length args.length)
      else m.enter body f entry params preserve args
    | _ => Exec.fail (.notAFunction f)

def call (body : Exec Unit) : Caller := fun f args =>
  match Builtin.ofName? f with
  | some b => b.invoke m.options.sink args
  | none => m.callFunction body f args

/-- Executes instructions until a return is next.  The end of the code ends the program. -/
def untilReturn : Nat → Exec Unit
  | 0 => throw .unfinished
  | n + 1 => do
    match (m.program.code[(← get).ip]?).map CodeLine.instr with
    | none => throw (.exit 0)
    | some .funReturn => pure ()
    | some _ =>
      m.step (m.call (untilReturn n))
      untilReturn n

def caller (fuel : Nat) : Caller := m.call (m.untilReturn fuel)

def untilEnd : Nat → Exec Unit
  | 0 => throw .unfinished
  | n + 1 => do
    if (← get).ip < m.program.code.size then
      m.step (m.caller n)
      untilEnd n

/-! ## Whole runs -/

/--
A fault as it is reported: with the place and the number of the latest step,
if they are known.
-/
structure Crash where
  fault : Fault
  loc : Option Location
  step : Option Nat
  deriving DecidableEq, Repr

inductive Ending where
  | exited (code : Nat)
  | crashed (crash : Crash)
  | unfinished
  deriving DecidableEq, Repr

def crashAt (s : State) (f : Fault) : Crash :=
  let last := s.journal.kept.latest?
  ⟨f, last.bind Entry.loc, last.map Entry.step⟩

def finish (s : State) (code : Nat) : State := { s with exitCode := some code, calls := [] }

def run (fuel : Nat) (s : State) : Ending × State :=
  let all : Exec Unit := do
    Exec.pushFrame "<top-level>" none
    m.untilEnd fuel
  match all.run s with
  | .ok () s' => (.exited 0, finish s' 0)
  | .error (.exit code) s' => (.exited code, finish s' code)
  | .error (.fault f) s' => (.crashed (crashAt s' f), s')
  | .error .unfinished s' => (.unfinished, s')

end Machine

end BrownLang
