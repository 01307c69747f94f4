import BrownLang.Fault
import BrownLang.Machine.Generator
import BrownLang.Machine.Journal
import BrownLang.Program

/-!
# The state of a running program

All variables are global words in memory.  A variable gets its word when it is
first used, at the end of memory; a data label is a variable from the start,
with its word where the label stands.
-/

namespace BrownLang

inductive SinkFailure where
  | system (reason : String)
  | other (reason : String)
  deriving DecidableEq, Repr

def SinkFailure.fault : SinkFailure → Fault
  | system reason => .output reason
  | other reason => .host reason

inductive Sink where
  | steady
  /-- Accepts `writes` writes and fails at all later ones. -/
  | failing (writes : Nat) (failure : SinkFailure)
  deriving DecidableEq, Repr

structure Options where
  verbose : Bool := false
  strictArgs : Bool := false
  historyLimit : Nat := 10000
  sink : Sink := .steady

structure Machine where
  program : Program
  options : Options

structure State where
  memory : Memory
  vars : Table
  ip : Nat
  canvas : Canvas
  /-- What was written, one string for each write. -/
  writes : Array String
  generator : Generator
  journal : Journal
  calls : List Frame
  nextFrame : Nat
  exitCode : Option Nat

namespace State

def output (s : State) : String := s.writes.foldl (· ++ ·) ""

/-- The values of the variables whose words lie in memory. -/
def snapshot (s : State) : List (String × Nat) :=
  s.vars.filterMap fun (x, a) =>
    match s.memory.readWord a with
    | .ok v => some (x, v)
    | .error _ => none

end State

def Machine.start (m : Machine) (canvas : Canvas) (generator : Generator) : State where
  memory := .ofList m.program.data
  vars := m.program.dataLabels
  ip := 0
  canvas := canvas
  writes := #[]
  generator := generator
  journal := .empty m.options.historyLimit
  calls := []
  nextFrame := 0
  exitCode := none

/-! ## Actions -/

inductive Halt where
  | fault (f : Fault)
  | exit (code : Nat)
  | unfinished
  deriving DecidableEq, Repr

/-- An action on the state.  One that halts leaves the state as it then is. -/
abbrev Exec := EStateM Halt State

namespace Exec

variable {α : Type}

def fail (f : Fault) : Exec α := throw (.fault f)

def lift (r : Except Fault α) : Exec α :=
  match r with
  | .ok a => pure a
  | .error f => fail f

/-! ### Memory and variables -/

def check (access : Access) (a : Nat) : Exec Unit := do
  lift (((← get).memory.check access a).mapError .memory)

def readWord (a : Nat) : Exec Nat := do
  check .readWord a
  return (← get).memory.wordAt a

def readByte (a : Nat) : Exec Nat := do
  check .readByte a
  return ((← get).memory.byteAt a).toNat

def writeWord (a : Nat) (v : Int) : Exec Unit := do
  check .writeWord a
  modify fun s => { s with memory := s.memory.setWord a (Word.ofInt v) }

def writeByte (a : Nat) (v : Int) : Exec Unit := do
  check .writeByte a
  modify fun s => { s with memory := s.memory.setByte a (Word.byte (Word.ofInt v) 3) }

/-- The address of a variable, which gets a word at the end of memory if it has none. -/
def addressOf (x : String) : Exec Nat := do
  let s ← get
  match s.vars.lookup x with
  | some a => pure a
  | none =>
    let a := s.memory.size
    set { s with memory := s.memory.allocateWord, vars := s.vars ++ [(x, a)] }
    pure a

def readVar (x : String) : Exec Nat := do
  readWord (← addressOf x)

def writeVar (x : String) (v : Int) : Exec Unit := do
  writeWord (← addressOf x) v

def readVars : List String → Exec (List Nat)
  | [] => pure []
  | x :: xs => do
    let v ← readVar x
    let vs ← readVars xs
    pure (v :: vs)

/-- Gives variables values, in order; those for which no value is left become zero. -/
def writeVars : List String → List Nat → Exec Unit
  | [], _ => pure ()
  | x :: xs, vs => do
    writeVar x (vs.headD 0)
    writeVars xs vs.tail

/-! ### Output, random numbers and drawing -/

def write (sink : Sink) (text : String) : Exec Unit :=
  let accept : Exec Unit := modify fun s => { s with writes := s.writes.push text }
  match sink with
  | .steady => accept
  | .failing writes failure => do
    if (← get).writes.size < writes then accept else fail failure.fault

def writeAll (sink : Sink) : List String → Exec Unit
  | [] => pure ()
  | t :: ts => do
    write sink t
    writeAll sink ts

def draw (low high : Nat) : Exec Nat :=
  modifyGet fun s =>
    let (v, g) := s.generator.draw low high
    (v, { s with generator := g })

def perform (c : DrawCommand) : Exec DrawReply := do
  let result ← modifyGet fun s =>
    let (canvas, result) := s.canvas.perform c
    (result, { s with canvas := canvas })
  lift (result.mapError .canvas)

/-! ### Calls -/

def pushFrame (name : String) (callLoc : Option Location) : Exec Unit :=
  modify fun s =>
    { s with
      calls := ⟨name, s.nextFrame, callLoc⟩ :: s.calls
      nextFrame := s.nextFrame + 1 }

def popFrame : Exec Unit :=
  modify fun s =>
    match s.calls with
    | [] => s
    | f :: rest => { s with calls := rest, journal := s.journal.dropFrame f.id }

def record (verbose : Bool) (line : CodeLine) : Exec Unit :=
  modify fun s =>
    let entry : Entry :=
      { step := s.journal.next
        frame := s.calls.head?.map Frame.id
        ip := s.ip
        rule := line.instr.rule
        loc := line.loc
        snapshot := if verbose then some s.snapshot else none }
    { s with journal := s.journal.add entry }

def jumpTo (ip : Nat) : Exec Unit := modify fun s => { s with ip := ip }

end Exec

end BrownLang
