import BrownLang.Screen.Image
import BrownLang.Screen.Segment
import BrownLang.Text.Numeral

/-!
# The screen

Drawing goes to the back buffer; presenting a frame copies it to the front
buffer.  The keyboard and the close button are worked from outside.

Sprites are textures numbered in the order of their making.  They are kept
beside the screen in a `Canvas`, which carries out drawing commands.
Coordinates are words read as signed numbers, while the sides of a rectangle
are taken as they are.  The sides of a bitmap and the length of a delay are
natural numbers.
-/

namespace BrownLang

def keyCount : Int := 512

inductive FrameStore where
  | off
  /-- The frames kept in a directory, with their numbers, latest first. -/
  | kept (directory : String) (frames : List (Nat × Image))
  /-- Frames should be kept, but there is no such directory. -/
  | missing (directory : String)

def frameFileName (n : Nat) : String := "frame_" ++ Text.zeroPadded 5 n ++ ".png"

inductive CanvasFault where
  | spriteWidth (w : Nat)
  | spriteBytes (w h given : Nat)
  | noSprite (index : Int)
  | invalidKey (code : Int)
  | frameNotSaved (path : String)
  deriving DecidableEq, Repr

def CanvasFault.message : CanvasFault → String
  | spriteWidth w => s!"Sprite width {w} is not a multiple of 8"
  | spriteBytes w h given => s!"Sprite of {w}x{h} needs {w / 8 * h} bytes, got {given}"
  | noSprite i => s!"No sprite with index {i}"
  | invalidKey k => s!"Invalid scancode {k}"
  | frameNotSaved path =>
    s!"Failed to save frame to '{path}': [Errno 2] No such file or directory: '{path}'"

structure Screen where
  back : Image
  front : Image
  color : Pixel
  pressed : List Int
  closing : Bool
  presented : Nat
  store : FrameStore

namespace Screen

def blank (width height : Nat) (store : FrameStore) : Screen where
  back := .filled width height .transparent
  front := .filled width height .transparent
  color := .transparent
  pressed := []
  closing := false
  presented := 0
  store := store

def standard (store : FrameStore) : Screen := blank 96 64 store

def standardPixelSide : Nat := 8

def clear (s : Screen) : Screen :=
  { s with back := .filled s.back.width s.back.height s.color }

def fill (s : Screen) (x y w h : Int) : Screen :=
  { s with back := s.back.fill s.color (Word.signed x) (Word.signed y) w h }

def line (s : Screen) (x₀ y₀ x₁ y₁ : Int) : Screen :=
  let segment : Segment := ⟨Word.signed x₀, Word.signed y₀, Word.signed x₁, Word.signed y₁⟩
  { s with back := segment.fold (fun img x y => img.fill s.color x y 1 1) s.back }

/--
Shows the back buffer.  If the frame cannot be saved it has been shown, but it
is not counted.
-/
def present (s : Screen) : Screen × Except CanvasFault Unit :=
  let shown := { s with front := s.back }
  match s.store with
  | .off => ({ shown with presented := s.presented + 1 }, .ok ())
  | .kept dir frames =>
    ({ shown with
        presented := s.presented + 1
        store := .kept dir ((s.presented, s.back) :: frames) }, .ok ())
  | .missing dir => (shown, .error (.frameNotSaved (dir ++ "/" ++ frameFileName s.presented)))

def savedFrames (s : Screen) : List (Nat × Image) :=
  match s.store with
  | .kept _ frames => frames.reverse
  | _ => []

end Screen

/-! ## Sprites -/

abbrev Sprites := Array Image

namespace Sprites

/--
The texture of a bitmap with eight cells to a byte, the highest bit first.  A
set bit has the colour `p`, all else is transparent.
-/
def monochrome (data : List UInt8) (w h : Nat) (p : Pixel) : Image :=
  let bits := data.toArray
  .generate w h fun x y =>
    let byte := bits.getD (y * (w / 8) + x / 8) 0
    if byte.toNat.testBit (7 - x % 8) then p else .transparent

def create (sprites : Sprites) (data : List UInt8) (w h : Nat) (color : Int) :
    Except CanvasFault (Sprites × Nat) :=
  if w % 8 ≠ 0 then .error (.spriteWidth w)
  else if data.length ≠ w / 8 * h then .error (.spriteBytes w h data.length)
  else .ok (sprites.push (monochrome data w h (.ofColor color)), sprites.size)

def find (sprites : Sprites) (index : Int) : Except CanvasFault Image :=
  if 0 ≤ index then
    match sprites[index.toNat]? with
    | some texture => .ok texture
    | none => .error (.noSprite index)
  else .error (.noSprite index)

end Sprites

/-! ## Commands -/

structure Canvas where
  screen : Screen
  sprites : Sprites

inductive DrawCommand where
  | setColor (color : Int)
  | clear
  | pixel (x y : Int)
  | fillRect (x y w h : Int)
  | line (x₀ y₀ x₁ y₁ : Int)
  | present
  | sprite (index x y : Int)
  | createSprite (data : List UInt8) (w h : Nat) (color : Int)
  | pressKey (code : Int)
  | releaseKey (code : Int)
  | isKeyPressed (code : Int)
  | requestClose
  | pollClose
  | delay (milliseconds : Nat)
  deriving DecidableEq, Repr

inductive DrawReply where
  | done
  | flag (b : Bool)
  | index (n : Nat)
  deriving DecidableEq, Repr

namespace Canvas

def ofScreen (s : Screen) : Canvas := ⟨s, #[]⟩

def validKey (code : Int) : Bool := 0 ≤ code && code < keyCount

/-- Carries out a command.  A screen without a window has no clock, so a delay takes no time. -/
def perform (c : Canvas) : DrawCommand → Canvas × Except CanvasFault DrawReply
  | .setColor color => ({ c with screen.color := .ofColor color }, .ok .done)
  | .clear => ({ c with screen := c.screen.clear }, .ok .done)
  | .pixel x y => ({ c with screen := c.screen.fill x y 1 1 }, .ok .done)
  | .fillRect x y w h => ({ c with screen := c.screen.fill x y w h }, .ok .done)
  | .line x₀ y₀ x₁ y₁ => ({ c with screen := c.screen.line x₀ y₀ x₁ y₁ }, .ok .done)
  | .present =>
    let (screen, result) := c.screen.present
    ({ c with screen := screen }, result.map fun _ => .done)
  | .sprite index x y =>
    match c.sprites.find index with
    | .ok texture =>
      ({ c with screen.back := c.screen.back.blit texture (Word.signed x) (Word.signed y) },
        .ok .done)
    | .error e => (c, .error e)
  | .createSprite data w h color =>
    match c.sprites.create data w h color with
    | .ok (sprites, n) => ({ c with sprites := sprites }, .ok (.index n))
    | .error e => (c, .error e)
  | .pressKey code =>
    if validKey code then
      ({ c with screen.pressed := code :: c.screen.pressed.filter (· != code) }, .ok .done)
    else (c, .error (.invalidKey code))
  | .releaseKey code =>
    if validKey code then
      ({ c with screen.pressed := c.screen.pressed.filter (· != code) }, .ok .done)
    else (c, .error (.invalidKey code))
  | .isKeyPressed code =>
    if validKey code then (c, .ok (.flag (c.screen.pressed.contains code)))
    else (c, .error (.invalidKey code))
  | .requestClose => ({ c with screen.closing := true }, .ok .done)
  | .pollClose => (c, .ok (.flag c.screen.closing))
  | .delay _ => (c, .ok .done)

end Canvas

end BrownLang
