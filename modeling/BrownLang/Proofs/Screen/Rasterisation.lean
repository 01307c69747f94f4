import BrownLang.Screen.Segment
import Mathlib.Data.Int.Order.Basic
import Mathlib.Data.List.Nodup
import Mathlib.Data.List.Range
import Mathlib.Logic.Function.Iterate
import Mathlib.Tactic.Linarith
import Mathlib.Tactic.Ring

/-!
# The cells of a line

The longer of the two coordinates of a line changes at every step of the walk.
The other one is at its share of the way, rounded to the nearest whole cell; of
two that are as near it is at the further one.  The error term says how far the
two shares are apart, and from it the walk finds the next cell.
-/

namespace BrownLang

namespace Segment

/-! ## Shares of the way -/

/-- `k * d / n`, rounded to the nearest whole number, a half upwards. -/
def share (n d k : Nat) : Nat := (2 * k * d + n) / (2 * n)

section

variable {n d : Nat}

@[simp] theorem share_zero (n d : Nat) : share n d 0 = 0 := by
  rw [share, Nat.mul_zero, Nat.zero_mul, Nat.zero_add, Nat.div_eq_zero_iff]
  omega

@[simp] theorem share_of_zero (n k : Nat) : share n 0 k = 0 := by
  rw [share, Nat.mul_zero, Nat.zero_add, Nat.div_eq_zero_iff]
  omega

theorem share_bounds (hn : 0 < n) (d k : Nat) :
    2 * n * share n d k ≤ 2 * k * d + n ∧ 2 * k * d + n < 2 * n * (share n d k + 1) :=
  ⟨Nat.mul_div_le _ _, Nat.lt_mul_div_succ _ (Nat.mul_pos (by decide) hn)⟩

theorem share_eq (hn : 0 < n) {k m : Nat} (hle : 2 * n * m ≤ 2 * k * d + n)
    (hlt : 2 * k * d + n < 2 * n * (m + 1)) : share n d k = m := by
  rw [share, Nat.div_eq_iff (Nat.mul_pos (by decide) hn)]
  constructor
  · linarith
  · have hsucc : 2 * n * (m + 1) = m * (2 * n) + 2 * n := by ring
    omega

theorem share_self (hn : 0 < n) (k : Nat) : share n n k = k := by
  apply share_eq hn
  · linarith
  · linarith

theorem share_all (hn : 0 < n) (d : Nat) : share n d n = d := by
  apply share_eq hn
  · linarith
  · linarith

/-- The next step of `n` takes the share of `d` to the next whole number. -/
def Moves (n d k : Nat) : Prop := 2 * n * (share n d k + 1) ≤ 2 * (k + 1) * d + n

instance (n d k : Nat) : Decidable (Moves n d k) := Nat.decLe _ _

theorem Moves.ne_zero {k : Nat} (hn : 0 < n) (h : Moves n d k) : d ≠ 0 := by
  rintro rfl
  rw [Moves, share_of_zero] at h
  omega

theorem share_succ (hn : 0 < n) (hd : d ≤ n) (k : Nat) :
    share n d (k + 1) = if Moves n d k then share n d k + 1 else share n d k := by
  obtain ⟨hle, hlt⟩ := share_bounds hn d k
  split
  next hnext =>
    apply share_eq hn hnext
    linarith
  next hnext =>
    apply share_eq hn
    · linarith
    · exact Nat.lt_of_not_le hnext

/-- How far the next whole number is beyond the share of the next step, in units of `1 / n`. -/
theorem share_excess (hn : 0 < n) (hd : d ≤ n) (k : Nat) :
    let excess : Int := n * (share n d k + 1) - d * (k + 1)
    (2 * excess ≤ n ↔ Moves n d k) ∧ -(d : Int) ≤ 2 * excess := by
  intro excess
  obtain ⟨-, hlt⟩ := share_bounds hn d k
  unfold Moves
  zify at hlt hd ⊢
  constructor
  · constructor
    · intro h
      linarith
    · intro h
      linarith
  · linarith

end

/-! ## The walk -/

variable (s : Segment)

def width : Nat := (s.x₁ - s.x₀).natAbs

def height : Nat := (s.y₁ - s.y₀).natAbs

def cell (k : Nat) : Int × Int :=
  (s.x₀ + (s.x₁ - s.x₀).sign * share s.length s.width k,
    s.y₀ + (s.y₁ - s.y₀).sign * share s.length s.height k)

def walkerAt (k : Nat) : Walker where
  x := (s.cell k).1
  y := (s.cell k).2
  err := s.width * (share s.length s.height k + 1) - s.height * (share s.length s.width k + 1)

theorem walkerAt_zero : s.walkerAt 0 = s.start := by
  simp [walkerAt, start, cell, dx, dy, width, height, Int.sub_eq_add_neg]

theorem sx_eq (h : s.width ≠ 0) : s.sx = (s.x₁ - s.x₀).sign := by
  unfold width at h
  unfold sx
  split
  · exact (Int.sign_eq_one_of_pos (by omega)).symm
  · exact (Int.sign_eq_neg_one_of_neg (by omega)).symm

theorem sy_eq (h : s.height ≠ 0) : s.sy = (s.y₁ - s.y₀).sign := by
  unfold height at h
  unfold sy
  split
  · exact (Int.sign_eq_one_of_pos (by omega)).symm
  · exact (Int.sign_eq_neg_one_of_neg (by omega)).symm

theorem moves_iff {k : Nat} (hpos : 0 < s.length) :
    (s.dy ≤ 2 * (s.walkerAt k).err ↔ Moves s.length s.width k) ∧
      (2 * (s.walkerAt k).err ≤ s.dx ↔ Moves s.length s.height k) := by
  have hdx : s.dx = s.width := rfl
  have hdy : s.dy = -s.height := rfl
  rw [hdx, hdy, walkerAt]
  rcases Nat.le_total s.height s.width with hle | hle
  · -- The horizontal coordinate changes at every step.
    have hlen : s.length = s.width := Nat.max_eq_left hle
    rw [hlen] at hpos ⊢
    obtain ⟨hexcess, hneg⟩ := share_excess hpos hle k
    have hall : Moves s.width s.width k := by
      rw [Moves, share_self hpos]
      linarith
    rw [share_self hpos]
    exact ⟨iff_of_true hneg hall, hexcess⟩
  · have hlen : s.length = s.height := Nat.max_eq_right hle
    rw [hlen] at hpos ⊢
    obtain ⟨hexcess, hneg⟩ := share_excess hpos hle k
    have hall : Moves s.height s.height k := by
      rw [Moves, share_self hpos]
      linarith
    rw [share_self hpos, ← hexcess]
    refine ⟨⟨fun h => by linarith, fun h => by linarith⟩, iff_of_true (by linarith) hall⟩

theorem next_eq (w : Walker) :
    s.next w = {
      x := if s.dy ≤ 2 * w.err then w.x + s.sx else w.x
      y := if 2 * w.err ≤ s.dx then w.y + s.sy else w.y
      err := w.err + (if s.dy ≤ 2 * w.err then s.dy else 0) +
        if 2 * w.err ≤ s.dx then s.dx else 0 } := by
  unfold next
  by_cases hx : s.dy ≤ 2 * w.err <;> by_cases hy : 2 * w.err ≤ s.dx <;> simp [hx, hy]

theorem walkerAt_succ {k : Nat} (hpos : 0 < s.length) :
    s.walkerAt (k + 1) = {
      x := if Moves s.length s.width k then (s.walkerAt k).x + s.sx else (s.walkerAt k).x
      y := if Moves s.length s.height k then (s.walkerAt k).y + s.sy else (s.walkerAt k).y
      err := (s.walkerAt k).err + (if Moves s.length s.width k then s.dy else 0) +
        if Moves s.length s.height k then s.dx else 0 } := by
  have hx := share_succ hpos (Nat.le_max_left s.width s.height) k
  have hy := share_succ hpos (Nat.le_max_right s.width s.height) k
  have hdx : s.dx = s.width := rfl
  have hdy : s.dy = -s.height := rfl
  rw [walkerAt, cell, hx, hy, hdx, hdy]
  congr 1
  · dsimp only
    split
    next hmoves =>
      rw [s.sx_eq (hmoves.ne_zero hpos), walkerAt, cell]
      push_cast
      ring
    next => rfl
  · dsimp only
    split
    next hmoves =>
      rw [s.sy_eq (hmoves.ne_zero hpos), walkerAt, cell]
      push_cast
      ring
    next => rfl
  · rw [walkerAt]
    split <;> split <;> push_cast <;> ring

theorem next_walkerAt {k : Nat} (hpos : 0 < s.length) :
    s.next (s.walkerAt k) = s.walkerAt (k + 1) := by
  obtain ⟨hx, hy⟩ := s.moves_iff (k := k) hpos
  rw [next_eq, walkerAt_succ s hpos]
  simp only [hx, hy]

/-! ## The whole walk -/

theorem iterate_next {k : Nat} (hk : k ≤ s.length) : s.next^[k] s.start = s.walkerAt k := by
  induction k with
  | zero => exact s.walkerAt_zero.symm
  | succ k ih =>
      rw [Function.iterate_succ_apply', ih (Nat.le_of_succ_le hk)]
      exact s.next_walkerAt (Nat.lt_of_lt_of_le k.succ_pos hk)

theorem cell_zero : s.cell 0 = (s.x₀, s.y₀) := by
  simp [cell]

theorem cell_length : s.cell s.length = (s.x₁, s.y₁) := by
  rcases Nat.eq_zero_or_pos s.length with hzero | hpos
  · have hx : s.width = 0 := Nat.le_zero.mp (hzero ▸ Nat.le_max_left _ _)
    have hy : s.height = 0 := Nat.le_zero.mp (hzero ▸ Nat.le_max_right _ _)
    unfold width at hx
    unfold height at hy
    rw [hzero, cell_zero]
    ext
    · dsimp only
      omega
    · dsimp only
      omega
  · rw [cell, share_all hpos, share_all hpos, width, height, Int.sign_mul_natAbs,
      Int.sign_mul_natAbs]
    ext
    · dsimp only
      omega
    · dsimp only
      omega

theorem cell_of_pos (hpos : 0 < s.length) :
    (s.width ≠ 0 ∧ ∀ k, (s.cell k).1 = s.x₀ + (s.x₁ - s.x₀).sign * k) ∨
      (s.height ≠ 0 ∧ ∀ k, (s.cell k).2 = s.y₀ + (s.y₁ - s.y₀).sign * k) := by
  rcases Nat.le_total s.height s.width with hle | hle
  · have hlen : s.length = s.width := Nat.max_eq_left hle
    rw [hlen] at hpos
    refine .inl ⟨Nat.ne_of_gt hpos, fun k => ?_⟩
    rw [cell, hlen, share_self hpos]
  · have hlen : s.length = s.height := Nat.max_eq_right hle
    rw [hlen] at hpos
    refine .inr ⟨Nat.ne_of_gt hpos, fun k => ?_⟩
    rw [cell, hlen, share_self hpos]

theorem mul_sign_injective {c d : Int} (hd : d.natAbs ≠ 0) :
    Function.Injective fun k : Nat => c + d.sign * k := by
  intro i j h
  have hsign : d.sign ≠ 0 := by
    rw [ne_eq, Int.sign_eq_zero_iff_zero]
    omega
  have hmul : d.sign * i = d.sign * j := by
    dsimp only at h
    omega
  exact_mod_cast Int.eq_of_mul_eq_mul_left hsign hmul

theorem cell_injective (hpos : 0 < s.length) : Function.Injective s.cell := by
  intro i j h
  rcases s.cell_of_pos hpos with ⟨hne, hx⟩ | ⟨hne, hy⟩
  · have hij := congrArg Prod.fst h
    rw [hx, hx] at hij
    exact mul_sign_injective hne hij
  · have hij := congrArg Prod.snd h
    rw [hy, hy] at hij
    exact mul_sign_injective hne hij

theorem cell_eq_end_iff {k : Nat} (hk : k ≤ s.length) :
    s.cell k = (s.x₁, s.y₁) ↔ k = s.length := by
  rw [← cell_length]
  constructor
  · intro h
    rcases Nat.eq_zero_or_pos s.length with hzero | hpos
    · omega
    · exact s.cell_injective hpos h
  · rintro rfl
    rfl

theorem walkerAt_ends_iff {k : Nat} (hk : k ≤ s.length) :
    (s.walkerAt k).x = s.x₁ ∧ (s.walkerAt k).y = s.y₁ ↔ k = s.length := by
  rw [← s.cell_eq_end_iff hk, Prod.ext_iff]
  rfl

/-! ## What is done at the cells -/

variable {α : Type} (f : α → Int → Int → α)

theorem foldFrom_walkerAt {limit k : Nat} (hk : k ≤ s.length) (hlimit : s.length ≤ k + limit)
    (a : α) :
    s.foldFrom f limit (s.walkerAt k) a =
      ((List.range' k (s.length - k + 1)).map s.cell).foldl (fun a c => f a c.1 c.2) a := by
  induction limit generalizing k a with
  | zero =>
      have hend : s.length - k = 0 := by omega
      rw [hend]
      rfl
  | succ limit ih =>
      rw [foldFrom, List.range'_succ, List.map_cons, List.foldl_cons]
      by_cases hend : k = s.length
      · rw [if_pos ((s.walkerAt_ends_iff hk).mpr hend), hend, Nat.sub_self]
        rfl
      · have hmore : s.length - k = s.length - (k + 1) + 1 := by omega
        rw [if_neg (mt (s.walkerAt_ends_iff hk).mp hend), s.next_walkerAt (by omega),
          ih (by omega) (by omega), hmore]
        rfl

theorem foldFrom_start {limit : Nat} (hlimit : s.length ≤ limit) (a : α) :
    s.foldFrom f limit s.start a =
      ((List.range (s.length + 1)).map s.cell).foldl (fun a c => f a c.1 c.2) a := by
  rw [← walkerAt_zero, s.foldFrom_walkerAt f (Nat.zero_le _) (by omega), List.range_eq_range',
    Nat.sub_zero]

theorem cells_eq : s.cells = (List.range (s.length + 1)).map s.cell := by
  rw [cells, fold, s.foldFrom_start _ (Nat.le_refl _), List.foldl_flip_cons_eq_append]
  simp

theorem fold_eq (a : α) : s.fold f a = s.cells.foldl (fun a c => f a c.1 c.2) a := by
  rw [fold, s.foldFrom_start f (Nat.le_refl _), cells_eq]

theorem nodup_cells : s.cells.Nodup := by
  rw [cells_eq]
  rcases Nat.eq_zero_or_pos s.length with hzero | hpos
  · rw [hzero]
    exact List.nodup_singleton _
  · exact (List.nodup_range).map (s.cell_injective hpos)

end Segment

end BrownLang
