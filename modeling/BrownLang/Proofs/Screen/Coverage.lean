import BrownLang.Proofs.Screen.History

/-!
# Coverage

Drawing lays one pixel over another and takes nothing away.  The coverage of a
pixel of the back buffer does not go down from one command to the next, as long
as the buffer is not cleared, and a colour laid over another comes to lie
between the two.
-/

namespace BrownLang

/-! ## One pixel over another -/

namespace Pixel

def Between (s d m : UInt8) : Prop :=
  min s.toNat d.toNat ≤ m.toNat ∧ m.toNat ≤ max s.toNat d.toNat

theorem between_mix (a s d : UInt8) : Between s d (mix a s d) := by
  have hall : a.toNat + (255 - a.toNat) = 255 := by
    have ha := a.toNat_lt
    omega
  unfold Between
  rw [toNat_mix]
  constructor
  · -- A mean of two numbers is no less than the smaller of them, which is a whole number.
    rw [Nat.le_div_iff_mul_le (by decide)]
    calc min s.toNat d.toNat * 255
        = a.toNat * min s.toNat d.toNat + (255 - a.toNat) * min s.toNat d.toNat := by
          rw [← Nat.add_mul, hall, Nat.mul_comm]
      _ ≤ a.toNat * s.toNat + (255 - a.toNat) * d.toNat :=
          Nat.add_le_add (Nat.mul_le_mul_left _ (Nat.min_le_left _ _))
            (Nat.mul_le_mul_left _ (Nat.min_le_right _ _))
  · apply Nat.div_le_of_le_mul
    calc a.toNat * s.toNat + (255 - a.toNat) * d.toNat
        ≤ a.toNat * max s.toNat d.toNat + (255 - a.toNat) * max s.toNat d.toNat :=
          Nat.add_le_add (Nat.mul_le_mul_left _ (Nat.le_max_left _ _))
            (Nat.mul_le_mul_left _ (Nat.le_max_right _ _))
      _ = 255 * max s.toNat d.toNat := by
          rw [← Nat.add_mul, hall]

theorem le_cover (a d : UInt8) : d ≤ cover a d := by
  have ha := a.toNat_lt
  have hd := d.toNat_lt
  have hlost : d.toNat * a.toNat ≤ 255 * a.toNat := Nat.mul_le_mul_right _ (by omega)
  have hsplit : d.toNat * 255 = d.toNat * (255 - a.toNat) + d.toNat * a.toNat := by
    rw [← Nat.mul_add]
    congr 1
    omega
  rw [UInt8.le_iff_toNat_le, toNat_cover]
  omega

theorem cover_full (a : UInt8) : cover a 255 = 255 := by
  have ha := a.toNat_lt
  have hfull : (255 : UInt8).toNat = 255 := rfl
  rw [← UInt8.toNat_inj, toNat_cover, hfull]
  omega

/--
The pixel `p` is `src` laid over `dst`: its channels are the means, none of which
is too large for a byte, it covers no less than `dst`, and its colour lies
between the two.
-/
structure LaidOver (src dst p : Pixel) : Prop where
  mixed : src.Over dst p
  fits : ∀ s d : UInt8,
    (src.alpha.toNat * s.toNat + (255 - src.alpha.toNat) * d.toNat) / 255 ≤ 255
  unclamped :
    let sum := src.alpha.toNat + dst.alpha.toNat * (255 - src.alpha.toNat) / 255
    min sum 255 = sum
  covers : dst.alpha ≤ p.alpha
  keeps_full : dst.alpha = 255 → p.alpha = 255
  red : Between src.red dst.red p.red
  green : Between src.green dst.green p.green
  blue : Between src.blue dst.blue p.blue

theorem laidOver_blend (src dst : Pixel) : src.LaidOver dst (src.blend dst) where
  mixed := src.over_blend dst
  fits s d := Nat.div_le_of_le_mul (mix_sum_le src.alpha s d)
  unclamped := Nat.min_eq_left (cover_sum_le src.alpha dst.alpha)
  covers := le_cover _ _
  keeps_full h := by
    rw [blend, h]
    exact cover_full _
  red := between_mix _ _ _
  green := between_mix _ _ _
  blue := between_mix _ _ _

/-- The pixel `q` covers no less than `p`, and all if `p` does. -/
def Thickens (p q : Pixel) : Prop := p.alpha ≤ q.alpha ∧ (p.alpha = 255 → q.alpha = 255)

theorem thickens_refl (p : Pixel) : p.Thickens p := ⟨UInt8.le_refl _, id⟩

theorem Thickens.trans {p q r : Pixel} (hpq : p.Thickens q) (hqr : q.Thickens r) :
    p.Thickens r :=
  ⟨UInt8.le_trans hpq.1 hqr.1, hqr.2 ∘ hpq.2⟩

end Pixel

/-! ## One command -/

namespace Canvas

variable (c : Canvas)

/-- What a command draws with: the current colour, or the pixels of a sprite. -/
def Paints : DrawCommand → Pixel → Prop
  | .pixel .., src | .fillRect .., src | .line .., src => src = c.screen.color
  | .sprite index _ _, src =>
    ∃ texture, c.sprites.find index = .ok texture ∧ ∃ x y, texture.get? x y = some src
  | _, _ => False

/-- The pixel is left as it was, or one that the command draws with is laid over it. -/
def Draws (d : DrawCommand) (p q : Pixel) : Prop :=
  q = p ∨ ∃ src, c.Paints d src ∧ src.LaidOver p q

theorem Draws.thickens {c : Canvas} {d : DrawCommand} {p q : Pixel} (h : c.Draws d p q) :
    p.Thickens q := by
  rcases h with rfl | ⟨src, -, hlaid⟩
  · exact Pixel.thickens_refl _
  · exact ⟨hlaid.covers, hlaid.keeps_full⟩

variable {c} {x y : Nat} {p : Pixel}

theorem draws_of_ite {d : DrawCommand} {after : Option Pixel} {covered : Prop}
    [Decidable covered] {src : Pixel} (hsrc : covered → c.Paints d src)
    (hafter : after = if covered then (some p).map src.blend else some p) :
    ∃ q, after = some q ∧ c.Draws d p q := by
  by_cases hcovered : covered
  · rw [if_pos hcovered, Option.map_some] at hafter
    exact ⟨_, hafter, .inr ⟨src, hsrc hcovered, src.laidOver_blend p⟩⟩
  · rw [if_neg hcovered] at hafter
    exact ⟨p, hafter, .inl rfl⟩

theorem draws_fill (hp : c.screen.back.get? x y = some p) {d : DrawCommand}
    (hd : c.Paints d c.screen.color) (left top w h : Int) :
    ∃ q, (c.screen.back.fill c.screen.color left top w h).get? x y = some q ∧ c.Draws d p q := by
  have hdrawn := c.screen.back.get?_draw left top w h (fun _ _ => c.screen.color) x y
  rw [hp] at hdrawn
  exact draws_of_ite (fun _ => hd) hdrawn

theorem draws_line (hp : c.screen.back.get? x y = some p) (x₀ y₀ x₁ y₁ : Int) :
    ∃ q, (c.perform (.line x₀ y₀ x₁ y₁)).1.screen.back.get? x y = some q ∧
      c.Draws (.line x₀ y₀ x₁ y₁) p q := by
  -- The cells of a line are all different, so that one of them at most is this pixel's.
  have hdrawn : (c.perform (.line x₀ y₀ x₁ y₁)).1.screen.back.get? x y =
      if ((x : Int), (y : Int)) ∈ (Screen.segment x₀ y₀ x₁ y₁).cells then
        (some p).map c.screen.color.blend
      else some p := by
    rw [perform, Screen.line_eq, ← hp]
    convert Image.get?_foldl
      (fun im (cell : Int × Int) => im.get?_fill_cell c.screen.color cell.1 cell.2 x y)
      (Screen.segment x₀ y₀ x₁ y₁).nodup_cells c.screen.back
  exact draws_of_ite (fun _ => rfl) hdrawn

theorem draws_sprite (hp : c.screen.back.get? x y = some p) (index left top : Int) :
    ∃ q, (c.perform (.sprite index left top)).1.screen.back.get? x y = some q ∧
      c.Draws (.sprite index left top) p q := by
  rw [perform]
  cases hfind : c.sprites.find index with
  | error e => exact ⟨p, hp, .inl rfl⟩
  | ok texture =>
      by_cases hcovered :
          (0 ≤ x - Word.signed left ∧ x - Word.signed left < texture.width) ∧
            0 ≤ y - Word.signed top ∧ y - Word.signed top < texture.height
      · obtain ⟨src, hsrc, hblit⟩ :=
          c.screen.back.get?_blit_of_covered texture hcovered.1 hcovered.2
        rw [hp] at hblit
        exact ⟨_, hblit, .inr ⟨src, ⟨texture, hfind, _, _, hsrc⟩, src.laidOver_blend p⟩⟩
      · exact ⟨p, (c.screen.back.get?_blit_of_not_covered texture hcovered).trans hp, .inl rfl⟩

theorem draws_perform (hp : c.screen.back.get? x y = some p) {d : DrawCommand} (hd : d ≠ .clear) :
    ∃ q, (c.perform d).1.screen.back.get? x y = some q ∧ c.Draws d p q := by
  have left {c' : Canvas} (h : c'.screen.back = c.screen.back) :
      ∃ q, c'.screen.back.get? x y = some q ∧ c.Draws d p q := ⟨p, by rw [h, hp], .inl rfl⟩
  cases d with
  | clear => exact absurd rfl hd
  | pixel x' y' => exact draws_fill (d := .pixel x' y') hp rfl _ _ _ _
  | fillRect x' y' w h => exact draws_fill (d := .fillRect x' y' w h) hp rfl _ _ _ _
  | line => exact draws_line hp _ _ _ _
  | sprite => exact draws_sprite hp _ _ _
  | present =>
      refine left ?_
      simp only [perform, Screen.present]
      split <;> rfl
  | createSprite | pressKey | releaseKey | isKeyPressed =>
      refine left ?_
      simp only [perform]
      split <;> rfl
  | setColor | requestClose | pollClose | delay => exact left rfl

/-! ## Many commands -/

theorem thickens_after (hp : c.screen.back.get? x y = some p) {es : List CanvasEvent}
    (hes : .command .clear ∉ es) :
    ∃ q, (c.after es).screen.back.get? x y = some q ∧ p.Thickens q := by
  induction es using List.reverseRecOn with
  | nil => exact ⟨p, hp, p.thickens_refl⟩
  | append_singleton es e ih =>
      rw [List.mem_append, List.mem_singleton, not_or] at hes
      obtain ⟨q, hq, hpq⟩ := ih hes.1
      rw [after_concat]
      cases e with
      | storeChanges store => exact ⟨q, hq, hpq⟩
      | command d =>
          have hd : d ≠ .clear := fun h => hes.2 (h ▸ rfl)
          obtain ⟨r, hr, hdraws⟩ := draws_perform hq hd
          exact ⟨r, hr, hpq.trans hdraws.thickens⟩

/--
As long as the buffer is not cleared, no pixel covers less than it did at any
time before, and one that covers all does so for ever.  Each command leaves a
pixel as it was or lays one over it that it draws with; then the channels are
means that fit in a byte, and each colour lies between the two that it is made
of.
-/
theorem coverage_only_grows (c : Canvas) {es : List CanvasEvent} (hes : .command .clear ∉ es)
    (x y : Nat) :
    (∀ before later p, es = before ++ later → (c.after before).screen.back.get? x y = some p →
      ∃ q, (c.after es).screen.back.get? x y = some q ∧ p.alpha ≤ q.alpha ∧
        (p.alpha = 255 → q.alpha = 255)) ∧
    ∀ before d later p, es = before ++ .command d :: later →
      (c.after before).screen.back.get? x y = some p →
      ∃ q, (c.after (before ++ [.command d])).screen.back.get? x y = some q ∧
        (q = p ∨ ∃ src, (c.after before).Paints d src ∧ src.LaidOver p q) := by
  constructor
  · rintro before later p rfl hp
    rw [after_append]
    exact thickens_after hp fun h => hes (List.mem_append_right _ h)
  · rintro before d later p rfl hp
    have hd : d ≠ .clear := by
      rintro rfl
      exact hes (by simp)
    rw [after_concat]
    exact draws_perform hp hd

def layers : List CanvasEvent :=
  [.command (.fillRect 0 3 2 1), .command (.sprite 0 (-6) 3), .command (.pixel 1 3)]

theorem layers_thicken :
    (∃ q, (stamp.after layers).screen.back.get? 1 3 = some q ∧ 128 ≤ q.alpha) ∧
      ∃ q, (stamp.after layers).screen.back.get? 1 3 = some q ∧ q.alpha = 255 := by
  have hnot : .command .clear ∉ layers := by simp [layers]
  obtain ⟨hgrows, -⟩ := stamp.coverage_only_grows hnot 1 3
  obtain ⟨q, hq, hhalf, -⟩ :=
    hgrows (layers.take 1) (layers.drop 1) ⟨128, 0, 0, 128⟩ rfl (by decide)
  obtain ⟨r, hr, -, hfull⟩ :=
    hgrows (layers.take 2) (layers.drop 2) ⟨255, 0, 0, 255⟩ rfl (by decide)
  exact ⟨⟨q, hq, hhalf⟩, r, hr, hfull rfl⟩

end Canvas

end BrownLang
