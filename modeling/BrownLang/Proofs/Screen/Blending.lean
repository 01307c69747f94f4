import BrownLang.Screen.Pixel

/-!
# Blending

A colour drawn over another is the mean of the two, weighted by the coverage of
the one on top.  The sums that it is divided from are small, so that nothing is
cut off when the channels are made bytes again.
-/

namespace BrownLang

namespace Pixel

variable (a s d : UInt8)

theorem mix_sum_le : a.toNat * s.toNat + (255 - a.toNat) * d.toNat ≤ 255 * 255 := by
  have ha := a.toNat_lt
  have hs := s.toNat_lt
  have hd := d.toNat_lt
  have hsource : a.toNat * s.toNat ≤ a.toNat * 255 := Nat.mul_le_mul_left _ (by omega)
  have hbelow : (255 - a.toNat) * d.toNat ≤ (255 - a.toNat) * 255 :=
    Nat.mul_le_mul_left _ (by omega)
  omega

theorem cover_sum_le : a.toNat + d.toNat * (255 - a.toNat) / 255 ≤ 255 := by
  have ha := a.toNat_lt
  have hd := d.toNat_lt
  have hbelow : d.toNat * (255 - a.toNat) ≤ 255 * (255 - a.toNat) :=
    Nat.mul_le_mul_right _ (by omega)
  omega

theorem toNat_mix : (mix a s d).toNat =
    (a.toNat * s.toNat + (255 - a.toNat) * d.toNat) / 255 := by
  have hsum := mix_sum_le a s d
  rw [mix, UInt8.toNat_ofNat_of_lt']
  have hbyte : UInt8.size = 256 := rfl
  omega

theorem toNat_cover : (cover a d).toNat = a.toNat + d.toNat * (255 - a.toNat) / 255 := by
  have hsum := cover_sum_le a d
  have hmin := Nat.min_eq_left hsum
  rw [cover, hmin, UInt8.toNat_ofNat_of_lt']
  have hbyte : UInt8.size = 256 := rfl
  omega

/-- The pixel `p` is `src` drawn over `dst`: every channel is a mean, rounded down. -/
structure Over (src dst p : Pixel) : Prop where
  red : p.red.toNat =
    (src.alpha.toNat * src.red.toNat + (255 - src.alpha.toNat) * dst.red.toNat) / 255
  green : p.green.toNat =
    (src.alpha.toNat * src.green.toNat + (255 - src.alpha.toNat) * dst.green.toNat) / 255
  blue : p.blue.toNat =
    (src.alpha.toNat * src.blue.toNat + (255 - src.alpha.toNat) * dst.blue.toNat) / 255
  alpha : p.alpha.toNat = src.alpha.toNat + dst.alpha.toNat * (255 - src.alpha.toNat) / 255

theorem over_blend (src dst : Pixel) : src.Over dst (src.blend dst) :=
  ⟨toNat_mix _ _ _, toNat_mix _ _ _, toNat_mix _ _ _, toNat_cover _ _⟩

theorem Over.unique {src dst p q : Pixel} (hp : src.Over dst p) (hq : src.Over dst q) : p = q := by
  obtain ⟨⟩ := p
  obtain ⟨⟩ := q
  rw [mk.injEq]
  exact ⟨UInt8.toNat_inj.mp (hp.red.trans hq.red.symm),
    UInt8.toNat_inj.mp (hp.green.trans hq.green.symm),
    UInt8.toNat_inj.mp (hp.blue.trans hq.blue.symm),
    UInt8.toNat_inj.mp (hp.alpha.trans hq.alpha.symm)⟩

theorem blend_of_alpha_zero {src : Pixel} (h : src.alpha = 0) (dst : Pixel) : src.blend dst = dst := by
  have hzero : src.alpha.toNat = 0 := congrArg UInt8.toNat h
  refine (over_blend src dst).unique ⟨?_, ?_, ?_, ?_⟩ <;> rw [hzero] <;> omega

theorem blend_of_alpha_full {src : Pixel} (h : src.alpha = 255) (dst : Pixel) :
    src.blend dst = src := by
  have hfull : src.alpha.toNat = 255 := congrArg UInt8.toNat h
  refine (over_blend src dst).unique ⟨?_, ?_, ?_, ?_⟩ <;> rw [hfull] <;> omega

end Pixel

end BrownLang
