import BrownLang.Screen.Pixel

/-!
# Images

An image is a rectangle of pixels, stored row by row.  Drawing happens at any
integer coordinates; what falls outside the image is cut off.
-/

namespace BrownLang

structure Image where
  width : Nat
  height : Nat
  pixels : Array Pixel
  size_eq : pixels.size = width * height := by simp

/-- The cells `(x, y)` with `left ≤ x < right` and `top ≤ y < bottom`. -/
structure Region where
  left : Nat
  top : Nat
  right : Nat
  bottom : Nat
  deriving DecidableEq, Repr

namespace Region

def cells (r : Region) : List (Nat × Nat) :=
  (List.range' r.top (r.bottom - r.top)).flatMap fun y =>
    (List.range' r.left (r.right - r.left)).map fun x => (x, y)

end Region

namespace Image

def filled (width height : Nat) (p : Pixel) : Image :=
  ⟨width, height, Array.replicate (width * height) p, by simp⟩

def generate (width height : Nat) (f : Nat → Nat → Pixel) : Image :=
  ⟨width, height, Array.ofFn fun i : Fin (width * height) => f (i % width) (i / width), by simp⟩

def get? (img : Image) (x y : Nat) : Option Pixel :=
  if x < img.width ∧ y < img.height then img.pixels[y * img.width + x]? else none

/-- The pixel in column `x` and row `y`; outside the image all is transparent. -/
def pixelAt (img : Image) (x y : Nat) : Pixel := (img.get? x y).getD Pixel.transparent

def modify (img : Image) (x y : Nat) (f : Pixel → Pixel) : Image :=
  if x < img.width ∧ y < img.height then
    { img with
      pixels := img.pixels.modify (y * img.width + x) f
      size_eq := by simp [img.size_eq] }
  else img

theorem index_lt {w h x y : Nat} (hx : x < w) (hy : y < h) : y * w + x < w * h := by
  have : (y + 1) * w ≤ h * w := Nat.mul_le_mul_right w hy
  rw [Nat.add_mul, Nat.one_mul] at this
  rw [Nat.mul_comm w h]
  omega

theorem index_inj {w x x' y y' : Nat} (hx : x < w) (hx' : x' < w)
    (h : y * w + x = y' * w + x') : x = x' ∧ y = y' := by
  have hw : 0 < w := Nat.lt_of_le_of_lt (Nat.zero_le x) hx
  have hd := congrArg (· / w) h
  have hm := congrArg (· % w) h
  simp only [Nat.mul_comm _ w, Nat.mul_add_div hw, Nat.mul_add_mod,
    Nat.div_eq_of_lt hx, Nat.div_eq_of_lt hx', Nat.mod_eq_of_lt hx, Nat.mod_eq_of_lt hx',
    Nat.add_zero] at hd hm
  exact ⟨hm, hd⟩

theorem get?_modify (img : Image) (x y x' y' : Nat) (f : Pixel → Pixel) :
    (img.modify x y f).get? x' y' =
      if x = x' ∧ y = y' then (img.get? x' y').map f else img.get? x' y' := by
  unfold modify get?
  by_cases h : x < img.width ∧ y < img.height
  · by_cases h' : x' < img.width ∧ y' < img.height
    · simp only [h, h', and_self, if_true, Array.getElem?_modify]
      by_cases same : x = x' ∧ y = y'
      · obtain ⟨rfl, rfl⟩ := same
        simp
      · have apart : ¬ y * img.width + x = y' * img.width + x' :=
          fun e => same (index_inj h.1 h'.1 e)
        simp [same, apart]
    · simp [h, h']
  · by_cases same : x = x' ∧ y = y'
    · obtain ⟨rfl, rfl⟩ := same
      simp [h]
    · simp [h, same]

def clip (img : Image) (x y w h : Int) : Region where
  left := (max x 0).toNat
  top := (max y 0).toNat
  right := (min (x + w) img.width).toNat
  bottom := (min (y + h) img.height).toNat

/-- Draws `src`, a colour for each cell of the image, over all cells of a rectangle. -/
def draw (img : Image) (x y w h : Int) (src : Nat → Nat → Pixel) : Image :=
  (img.clip x y w h).cells.foldl (fun im c => im.modify c.1 c.2 (src c.1 c.2).blend) img

def fill (img : Image) (color : Pixel) (x y w h : Int) : Image :=
  img.draw x y w h fun _ _ => color

def blit (img texture : Image) (x y : Int) : Image :=
  img.draw x y texture.width texture.height fun px py =>
    texture.pixelAt (px - x).toNat (py - y).toNat

def scale (img : Image) (k : Nat) : Image :=
  generate (img.width * k) (img.height * k) fun x y => img.pixelAt (x / k) (y / k)

def toBytes (img : Image) : ByteArray :=
  img.pixels.foldl
    (fun bs p => (((bs.push p.red).push p.green).push p.blue).push p.alpha)
    (ByteArray.emptyWithCapacity (4 * img.pixels.size))

end Image

end BrownLang
