import BrownLang.Machine.State

/-!
# Built-in functions

Their names are looked up before those of the program's functions.  A built-in
function checks the number of its arguments before it does anything, and one
that has no better answer answers zero.
-/

namespace BrownLang

inductive Builtin where
  | println | print | puts | putc
  | exit
  | random | randomRange
  | present | drawColor | pixel | fillRect | line
  | keyPressed | clear | delay | pollEvents
  | createSpriteMono | sprite
  deriving DecidableEq, Repr

namespace Builtin

def all : List Builtin :=
  [println, print, puts, putc, exit, random, randomRange, present, drawColor, pixel, fillRect,
    line, keyPressed, clear, delay, pollEvents, createSpriteMono, sprite]

def name : Builtin → String
  | println => "println"
  | print => "print"
  | puts => "puts"
  | putc => "putc"
  | exit => "exit"
  | random => "random"
  | randomRange => "random_range"
  | present => "present"
  | drawColor => "draw_color"
  | pixel => "pixel"
  | fillRect => "fill_rect"
  | line => "line"
  | keyPressed => "key_pressed"
  | clear => "clear"
  | delay => "delay"
  | pollEvents => "poll_events"
  | createSpriteMono => "create_sprite_mono"
  | sprite => "sprite"

def ofName? (x : String) : Option Builtin := all.find? (·.name = x)

/-- The numbers of arguments that a function takes, if not any number will do. -/
def accepted : Builtin → Option (List Int)
  | println | print => none
  | exit | random | present | clear | pollEvents => some [0]
  | puts | putc | drawColor | keyPressed | delay => some [1]
  | randomRange | pixel => some [2]
  | sprite => some [3]
  | fillRect | line | createSpriteMono => some [4]

def checkCount (name : String) (accepted : Option (List Int)) (given : Nat) :
    Except Fault Unit :=
  match accepted with
  | none => .ok ()
  | some counts =>
    if (given : Int) ∈ counts then .ok () else .error (.builtinArity name counts given)

def character? (v : Nat) : Option Char :=
  if h : v.isValidChar then some (Char.ofNatAux v h) else none

def command (c : DrawCommand) : Exec Nat := do
  let _ ← Exec.perform c
  pure 0

def body (sink : Sink) : Builtin → List Nat → Exec Nat
  | println, args => do
    Exec.writeAll sink (if args.isEmpty then ["\n"] else args.map fun v => Text.decimal v ++ "\n")
    pure 0
  | print, args | puts, args => do
    Exec.writeAll sink (args.map Text.decimal)
    pure 0
  | putc, [v] =>
    match character? v with
    | some c => do
      Exec.write sink (String.singleton c)
      pure 0
    | none => Exec.fail (.invalidCharacter v)
  | exit, _ => throw (.exit 0)
  | random, _ => Exec.draw 0 Word.count
  | randomRange, [low, high] =>
    if low < high then Exec.draw low high else Exec.fail (.emptyRange low high)
  | present, _ => command .present
  | drawColor, [c] => command (.setColor c)
  | pixel, [x, y] => command (.pixel x y)
  | fillRect, [x, y, w, h] => command (.fillRect x y w h)
  | line, [x₀, y₀, x₁, y₁] => command (.line x₀ y₀ x₁ y₁)
  | keyPressed, [k] => do
    match ← Exec.perform (.isKeyPressed k) with
    | .flag true => pure 1
    | _ => pure 0
  | clear, _ => command .clear
  | delay, [ms] => command (.delay ms)
  | pollEvents, _ => do
    match ← Exec.perform .pollClose with
    | .flag true => throw (.exit 0)
    | _ => pure 0
  | createSpriteMono, [addr, w, h, color] =>
    if w % 8 ≠ 0 then Exec.fail (.canvas (.spriteWidth w))
    else do
      let data ← Exec.lift (((← get).memory.readBytes addr (w / 8 * h)).mapError .memory)
      match ← Exec.perform (.createSprite data w h color) with
      | .index n => pure n
      | _ => pure 0
  | sprite, [index, x, y] => command (.sprite index x y)
  | _, _ => pure 0

def invoke (sink : Sink) (b : Builtin) (args : List Nat) : Exec Nat := do
  Exec.lift (checkCount b.name b.accepted args.length)
  b.body sink args

end Builtin

end BrownLang
