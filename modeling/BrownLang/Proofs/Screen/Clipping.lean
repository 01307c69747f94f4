import BrownLang.Fault
import BrownLang.Proofs.Screen.Blending
import BrownLang.Proofs.Screen.Drawing

/-!
# Drawing at the edges of the screen

Rectangles and sprites may lie anywhere, also partly or wholly beside the
screen, and be of any size.  Drawing one blends just those pixels of the screen
that lie under it, a rectangle with the current colour and a sprite with the
pixel of its own that lies above.
-/

namespace BrownLang

namespace Image

theorem get?_of_lt (img : Image) {x y : Nat} (hx : x < img.width) (hy : y < img.height) :
    ∃ p, img.get? x y = some p := by
  have hin : y * img.width + x < img.pixels.size := by
    rw [img.size_eq]
    exact index_lt hx hy
  rw [get?, if_pos ⟨hx, hy⟩, Array.getElem?_eq_getElem hin]
  exact ⟨_, rfl⟩

theorem pixelAt_of_get? {img : Image} {x y : Nat} {p : Pixel} (h : img.get? x y = some p) :
    img.pixelAt x y = p := by
  rw [pixelAt, h, Option.getD_some]

theorem get?_blit_of_covered (img texture : Image) {x y : Int} {px py : Nat}
    (hx : 0 ≤ px - x ∧ px - x < texture.width) (hy : 0 ≤ py - y ∧ py - y < texture.height) :
    ∃ p, texture.get? (px - x).toNat (py - y).toNat = some p ∧
      (img.blit texture x y).get? px py = (img.get? px py).map p.blend := by
  have hcolumn : (px - x).toNat < texture.width := by omega
  have hrow : (py - y).toNat < texture.height := by omega
  obtain ⟨p, hp⟩ := texture.get?_of_lt hcolumn hrow
  refine ⟨p, hp, ?_⟩
  rw [blit, get?_draw, if_pos (by omega), pixelAt_of_get? hp]

theorem get?_blit_of_not_covered (img texture : Image) {x y : Int} {px py : Nat}
    (h : ¬ ((0 ≤ px - x ∧ px - x < texture.width) ∧ 0 ≤ py - y ∧ py - y < texture.height)) :
    (img.blit texture x y).get? px py = img.get? px py := by
  rw [blit, get?_draw, if_neg (by omega)]

theorem sameSize_blit (img texture : Image) (x y : Int) :
    img.SameSize (img.blit texture x y) :=
  img.sameSize_draw x y _ _ _

end Image

namespace Sprites

theorem find_of_lt {sprites : Sprites} {i : Nat} (h : i < sprites.size) :
    sprites.find i = .ok sprites[i] := by
  rw [find, if_pos (Int.natCast_nonneg i), Int.toNat_natCast, Array.getElem?_eq_getElem h]

theorem find_of_not_lt {sprites : Sprites} {index : Int}
    (h : ¬ (0 ≤ index ∧ index < sprites.size)) : sprites.find index = .error (.noSprite index) := by
  unfold find
  split
  next hnonneg =>
    have hsize : sprites.size ≤ index.toNat := by omega
    rw [Array.getElem?_eq_none hsize]
  next => rfl

end Sprites

namespace Canvas

/--
Filling a rectangle blends the current colour once into every pixel under it,
and changes nothing else; a single pixel is a rectangle of side one.  The sides
of the rectangle are taken as they are, however long.
-/
theorem rectangle_drawn_once (c : Canvas) (x y w h : Int) :
    let left := Word.signed x
    let top := Word.signed y
    let color := c.screen.color
    let old := c.screen.back
    c.perform (.pixel x y) = c.perform (.fillRect x y 1 1) ∧
    (∃ back,
      c.perform (.fillRect x y w h) = ({ c with screen.back := back }, .ok .done) ∧
      old.SameSize back ∧
      (∀ px py : Nat, back.get? px py =
        if (left ≤ px ∧ px < left + w) ∧ top ≤ py ∧ py < top + h then
          (old.get? px py).map color.blend
        else old.get? px py) ∧
      ∃ cells : List (Nat × Nat), cells.Nodup ∧
        (∀ px py, (px, py) ∈ cells ↔ (px < old.width ∧ py < old.height) ∧
          (left ≤ px ∧ px < left + w) ∧ top ≤ py ∧ py < top + h) ∧
        back = cells.foldl (fun img p => img.modify p.1 p.2 color.blend) old) ∧
    (∀ dst, color.Over dst (color.blend dst)) ∧
    ∀ a s d : UInt8,
      (a.toNat * s.toNat + (255 - a.toNat) * d.toNat) / 255 ≤ 255 ∧
      a.toNat + d.toNat * (255 - a.toNat) / 255 ≤ 255 := by
  intro left top color old
  refine ⟨rfl, ⟨old.fill color left top w h, rfl, old.sameSize_fill _ _ _ _ _, ?pixels, ?cells⟩,
    color.over_blend, ?bytes⟩
  case pixels =>
    intro px py
    rw [Image.fill, Image.get?_draw]
  case cells =>
    exact ⟨(old.clip left top w h).cells, Region.nodup_cells _,
      fun px py => old.mem_cells_clip left top w h, rfl⟩
  case bytes =>
    intro a s d
    have hsum := Pixel.mix_sum_le a s d
    exact ⟨by omega, Pixel.cover_sum_le a d⟩

/--
Drawing a sprite blends its pixels into those of the screen that lie under
them, and changes nothing else.  A pixel of the sprite that covers nothing
leaves the one under it, and one that covers all replaces it.  Where there is no
sprite of the number, nothing changes.
-/
theorem sprite_drawn_clipped (c : Canvas) (x y : Int) :
    let left := Word.signed x
    let top := Word.signed y
    let old := c.screen.back
    (∀ (i : Nat) (hi : i < c.sprites.size),
      let texture := c.sprites[i]
      ∃ back,
        c.perform (.sprite i x y) = ({ c with screen.back := back }, .ok .done) ∧
        old.SameSize back ∧
        ∀ px py : Nat,
          if (0 ≤ px - left ∧ px - left < texture.width) ∧
              0 ≤ py - top ∧ py - top < texture.height then
            ∃ p, texture.get? (px - left).toNat (py - top).toNat = some p ∧
              back.get? px py = (old.get? px py).map p.blend
          else back.get? px py = old.get? px py) ∧
    (∀ index : Int, ¬ (0 ≤ index ∧ index < c.sprites.size) →
      c.perform (.sprite index x y) = (c, .error (.noSprite index)) ∧
      (Fault.canvas (.noSprite index)).title = "GraphicsError") ∧
    ∀ src dst : Pixel, src.Over dst (src.blend dst) ∧
      (src.alpha = 0 → src.blend dst = dst) ∧ (src.alpha = 255 → src.blend dst = src) := by
  intro left top old
  refine ⟨fun i hi => ?found, fun index hindex => ⟨?missing, rfl⟩, fun src dst =>
    ⟨src.over_blend dst, fun h => Pixel.blend_of_alpha_zero h dst,
      fun h => Pixel.blend_of_alpha_full h dst⟩⟩
  case found =>
    refine ⟨old.blit c.sprites[i] left top, ?_, old.sameSize_blit _ _ _, fun px py => ?_⟩
    · rw [perform, Sprites.find_of_lt hi]
    · split
      next hcovered => exact old.get?_blit_of_covered _ hcovered.1 hcovered.2
      next hbeside => exact old.get?_blit_of_not_covered _ hbeside
  case missing => rw [perform, Sprites.find_of_not_lt hindex]

def stamp : Canvas := ⟨.easel, #[Sprites.monochrome [0x55] 8 1 (.ofColor 0xFF0000FF)]⟩

theorem stamp_drawn_clipped :
    (∃ back, stamp.perform (.sprite 0 (-6) 3) = ({ stamp with screen.back := back }, .ok .done) ∧
      back.get? 0 3 = some .transparent ∧ back.get? 1 3 = some ⟨255, 0, 0, 255⟩ ∧
      back.get? 2 3 = some .transparent) ∧
    stamp.perform (.sprite 1 (-6) 3) = (stamp, .error (.noSprite 1)) := by
  obtain ⟨hfound, hmissing, -⟩ := stamp.sprite_drawn_clipped (-6) 3
  obtain ⟨back, hperform, -, hpixels⟩ := hfound 0 (by decide)
  refine ⟨⟨back, hperform, ?_, ?_, ?_⟩, (hmissing 1 (by decide)).1⟩
  · obtain ⟨p, hp, hback⟩ := hpixels 0 3
    have hclear : some p = some .transparent := hp.symm.trans (by decide)
    rw [hback, Option.some.inj hclear]
    decide
  · obtain ⟨p, hp, hback⟩ := hpixels 1 3
    have hred : some p = some ⟨255, 0, 0, 255⟩ := hp.symm.trans (by decide)
    rw [hback, Option.some.inj hred]
    decide
  · have hbeside := hpixels 2 3
    rw [if_neg (by decide)] at hbeside
    rw [hbeside]
    decide

end Canvas

end BrownLang
