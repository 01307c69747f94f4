import BrownLang.Screen

/-!
# Sprites and their textures

A texture is made of a bitmap, and its pixels are the bits of that in order.
Sprites are only ever added, and no command changes a texture that is there.
-/

namespace BrownLang

theorem Image.get?_generate (w h : Nat) (f : Nat → Nat → Pixel) {x y : Nat} (hx : x < w)
    (hy : y < h) : (generate w h f).get? x y = some (f x y) := by
  have hin : y * w + x < w * h := index_lt hx hy
  have hcolumn : (y * w + x) % w = x := by
    rw [Nat.mul_comm, Nat.mul_add_mod, Nat.mod_eq_of_lt hx]
  have hrow : (y * w + x) / w = y := by
    rw [Nat.mul_comm, Nat.mul_add_div (Nat.zero_lt_of_lt hx), Nat.div_eq_of_lt hx, Nat.add_zero]
  rw [generate, get?, if_pos ⟨hx, hy⟩, Array.getElem?_ofFn, dif_pos hin, hcolumn, hrow]

/--
The texture shows the bits of the bytes `f 0`, `f 1` and so on, eight of them to
a byte and the highest first: a bit that is set has the colour `p`, and one that
is not is transparent.
-/
structure Image.Shows (texture : Image) (f : Nat → UInt8) (w h : Nat) (p : Pixel) : Prop where
  width_eq : texture.width = w
  height_eq : texture.height = h
  pixel : ∀ row < h, ∀ column < w, texture.get? column row = some
    (if (f (row * (w / 8) + column / 8)).toNat.testBit (7 - column % 8) then p else .transparent)

namespace Sprites

theorem monochrome_shows {w h : Nat} (hw : w % 8 = 0) (f : Nat → UInt8) (p : Pixel) :
    (monochrome ((List.range (w / 8 * h)).map f) w h p).Shows f w h p := by
  refine ⟨rfl, rfl, fun row hrow column hcolumn => ?_⟩
  have hin : row * (w / 8) + column / 8 < w / 8 * h := Image.index_lt (by omega) hrow
  rw [monochrome, Image.get?_generate _ _ _ hcolumn hrow]
  simp [hin]

theorem create_eq_ok {sprites sprites' : Sprites} {data : List UInt8} {w h n : Nat} {color : Int} :
    sprites.create data w h color = .ok (sprites', n) ↔
      (w % 8 = 0 ∧ data.length = w / 8 * h) ∧
        sprites' = sprites.push (monochrome data w h (.ofColor color)) ∧ n = sprites.size := by
  unfold create
  split
  next hw => simp [hw]
  next hw =>
    split
    next hdata => simp [hdata]
    next hdata =>
      rw [Decidable.not_not] at hw hdata
      simp [hw, hdata, eq_comm]

end Sprites

theorem Canvas.sprites_prefix_perform (c : Canvas) (command : DrawCommand) :
    c.sprites.toList <+: (c.perform command).1.sprites.toList := by
  unfold perform
  split
  case h_8 data w h color =>
    split
    next sprites n hcreate =>
      obtain ⟨-, rfl, -⟩ := Sprites.create_eq_ok.mp hcreate
      rw [Array.toList_push]
      exact List.prefix_append _ _
    next => exact List.prefix_rfl
  all_goals try split
  all_goals exact List.prefix_rfl

end BrownLang
