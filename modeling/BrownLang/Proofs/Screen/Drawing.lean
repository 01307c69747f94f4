import BrownLang.Proofs.Screen.Rasterisation
import BrownLang.Screen

/-!
# What is drawn

Drawing a rectangle blends every cell of the image that the rectangle covers
once, and leaves all others as they are.  A line is drawn as the rectangles of
its cells, which are all different, so that it too blends a cell at most once.
-/

namespace BrownLang

namespace Region

theorem mem_cells {r : Region} {x y : Nat} :
    (x, y) ∈ r.cells ↔ (r.left ≤ x ∧ x < r.right) ∧ r.top ≤ y ∧ y < r.bottom := by
  simp only [cells, List.mem_flatMap, List.mem_map, List.mem_range'_1, Prod.mk.injEq]
  constructor
  · rintro ⟨y', hy, x', hx, rfl, rfl⟩
    omega
  · rintro ⟨hx, hy⟩
    exact ⟨y, by omega, x, by omega, rfl, rfl⟩

theorem nodup_cells (r : Region) : r.cells.Nodup := by
  rw [cells, List.nodup_flatMap]
  constructor
  · intro y _
    exact (List.nodup_range' (h := by decide)).map fun x x' h => congrArg Prod.fst h
  · refine (List.nodup_range' (h := by decide)).imp fun {y y'} hne c hc hc' => hne ?_
    obtain ⟨x, -, rfl⟩ := List.mem_map.mp hc
    obtain ⟨x', -, h⟩ := List.mem_map.mp hc'
    exact (congrArg Prod.snd h).symm

end Region

namespace Image

/-! ## One pixel at a time -/

def SameSize (img img' : Image) : Prop := img'.width = img.width ∧ img'.height = img.height

theorem sameSize_modify (img : Image) (x y : Nat) (f : Pixel → Pixel) :
    img.SameSize (img.modify x y f) := by
  unfold modify
  split <;> exact ⟨rfl, rfl⟩

theorem get?_eq_none {img : Image} {x y : Nat} (h : ¬ (x < img.width ∧ y < img.height)) :
    img.get? x y = none :=
  if_neg h

section

variable {γ : Type} {step : Image → γ → Image}

theorem sameSize_foldl (hstep : ∀ img c, SameSize img (step img c)) (cs : List γ) (img : Image) :
    img.SameSize (cs.foldl step img) := by
  induction cs generalizing img with
  | nil => exact ⟨rfl, rfl⟩
  | cons c cs ih =>
      obtain ⟨hwidth, hheight⟩ := hstep img c
      obtain ⟨hwidth', hheight'⟩ := ih (step img c)
      exact ⟨hwidth'.trans hwidth, hheight'.trans hheight⟩

/-- Of several steps that are all different only one can change a pixel. -/
theorem get?_foldl [DecidableEq γ] {x y : Nat} {target : γ} {f : Pixel → Pixel}
    (hstep : ∀ img c, (step img c).get? x y =
      if c = target then (img.get? x y).map f else img.get? x y)
    {cs : List γ} (hcs : cs.Nodup) (img : Image) :
    (cs.foldl step img).get? x y =
      if target ∈ cs then (img.get? x y).map f else img.get? x y := by
  induction cs generalizing img with
  | nil => rfl
  | cons c cs ih =>
      obtain ⟨hc, hcs⟩ := List.nodup_cons.mp hcs
      rw [List.foldl_cons, ih hcs, hstep]
      by_cases htarget : c = target
      · subst htarget
        simp [hc]
      · simp [htarget, Ne.symm htarget]

end

/-! ## Rectangles -/

theorem sameSize_draw (img : Image) (x y w h : Int) (src : Nat → Nat → Pixel) :
    img.SameSize (img.draw x y w h src) := by
  rw [draw]
  exact sameSize_foldl (fun im c => im.sameSize_modify _ _ _) _ img

theorem mem_cells_clip (img : Image) (x y w h : Int) {px py : Nat} :
    (px, py) ∈ (img.clip x y w h).cells ↔
      (px < img.width ∧ py < img.height) ∧ (x ≤ px ∧ px < x + w) ∧ y ≤ py ∧ py < y + h := by
  rw [Region.mem_cells, clip]
  dsimp only
  omega

theorem get?_draw (img : Image) (x y w h : Int) (src : Nat → Nat → Pixel) (px py : Nat) :
    (img.draw x y w h src).get? px py =
      if (x ≤ px ∧ px < x + w) ∧ y ≤ py ∧ py < y + h then
        (img.get? px py).map (src px py).blend
      else img.get? px py := by
  have hstep (im : Image) (c : Nat × Nat) :
      (im.modify c.1 c.2 (src c.1 c.2).blend).get? px py =
        if c = (px, py) then (im.get? px py).map (src px py).blend else im.get? px py := by
    rw [get?_modify]
    by_cases hc : c = (px, py)
    · subst hc
      simp
    · rw [if_neg hc, if_neg (fun h => hc (Prod.ext h.1 h.2))]
  rw [draw, get?_foldl hstep (Region.nodup_cells _)]
  by_cases hin : px < img.width ∧ py < img.height
  · simp only [mem_cells_clip, hin, and_self, true_and]
  · rw [get?_eq_none hin]
    simp

theorem sameSize_fill (img : Image) (color : Pixel) (x y w h : Int) :
    img.SameSize (img.fill color x y w h) :=
  img.sameSize_draw x y w h _

theorem get?_fill_cell (img : Image) (color : Pixel) (x y : Int) (px py : Nat) :
    (img.fill color x y 1 1).get? px py =
      if (x, y) = ((px : Int), (py : Int)) then (img.get? px py).map color.blend
      else img.get? px py := by
  have hcell : (x ≤ px ∧ px < x + 1) ∧ y ≤ py ∧ py < y + 1 ↔
      (x, y) = ((px : Int), (py : Int)) := by
    rw [Prod.mk.injEq]
    omega
  rw [fill, get?_draw]
  simp only [hcell]

end Image

/-! ## Lines -/

namespace Screen

def segment (x₀ y₀ x₁ y₁ : Int) : Segment :=
  ⟨Word.signed x₀, Word.signed y₀, Word.signed x₁, Word.signed y₁⟩

theorem line_eq (screen : Screen) (x₀ y₀ x₁ y₁ : Int) :
    screen.line x₀ y₀ x₁ y₁ = { screen with
      back := (segment x₀ y₀ x₁ y₁).cells.foldl
        (fun im c => im.fill screen.color c.1 c.2 1 1) screen.back } := by
  have hfold := (segment x₀ y₀ x₁ y₁).fold_eq
    (fun (im : Image) x y => im.fill screen.color x y 1 1) screen.back
  exact congrArg (fun back => { screen with back := back }) hfold

/--
The walk along a line comes to its end after as many steps as the longer
coordinate changes, not before, and needs nobody to stop it.  The cell after
`k` steps is given by a formula.  The walk begins and ends at the given points
and visits no cell twice, and each cell on the screen is blended once.
-/
theorem line_drawn_once (screen : Screen) (x₀ y₀ x₁ y₁ : Int) :
    let s := segment x₀ y₀ x₁ y₁
    let a := (s.x₁ - s.x₀).natAbs
    let b := (s.y₁ - s.y₀).natAbs
    let n := max a b
    let cell (k : Nat) : Int × Int :=
      (s.x₀ + (s.x₁ - s.x₀).sign * ((2 * k * a + n) / (2 * n) : Nat),
        s.y₀ + (s.y₁ - s.y₀).sign * ((2 * k * b + n) / (2 * n) : Nat))
    (∀ k ≤ n, ((s.next^[k] s.start).x, (s.next^[k] s.start).y) = cell k ∧
      (cell k = (s.x₁, s.y₁) ↔ k = n)) ∧
    (∀ limit ≥ n, ∀ {α : Type} (f : α → Int → Int → α) (init : α),
      s.foldFrom f limit s.start init = s.cells.foldl (fun z c => f z c.1 c.2) init) ∧
    s.cells = (List.range (n + 1)).map cell ∧ s.cells.Nodup ∧
    s.cells.head? = some (s.x₀, s.y₀) ∧ s.cells.getLast? = some (s.x₁, s.y₁) ∧
    ∃ back, screen.line x₀ y₀ x₁ y₁ = { screen with back := back } ∧
      screen.back.SameSize back ∧
      ∀ x y : Nat, back.get? x y =
        if ((x : Int), (y : Int)) ∈ s.cells then (screen.back.get? x y).map screen.color.blend
        else screen.back.get? x y := by
  intro s a b n cell
  refine ⟨fun k hk => ?_, fun limit hlimit α f init => ?_, s.cells_eq, s.nodup_cells, ?_, ?_,
    _, screen.line_eq x₀ y₀ x₁ y₁, ?_, fun x y => ?_⟩
  · rw [s.iterate_next hk]
    exact ⟨rfl, s.cell_eq_end_iff hk⟩
  · rw [s.foldFrom_start f hlimit, s.cells_eq]
  · rw [s.cells_eq, List.range_succ_eq_map, List.map_cons, List.head?_cons, s.cell_zero]
  · rw [s.cells_eq, List.range_succ, List.map_append, List.map_singleton, List.getLast?_concat,
      s.cell_length]
  · exact Image.sameSize_foldl (fun im c => im.sameSize_fill _ _ _ _ _) _ _
  · have hdrawn := Image.get?_foldl
      (fun im (c : Int × Int) => im.get?_fill_cell screen.color c.1 c.2 x y) s.nodup_cells
      screen.back
    convert hdrawn

def easel : Screen := { blank 5 4 .off with color := .ofColor 0xFF000080 }

theorem easel_line_drawn :
    (segment (-2) 0 2 2).cells = [(-2, 0), (-1, 1), (0, 1), (1, 2), (2, 2)] ∧
      ∃ back, easel.line (-2) 0 2 2 = { easel with back := back } ∧
        ∀ x y : Nat, back.get? x y =
          if ((x : Int), (y : Int)) ∈ [(-2, 0), (-1, 1), (0, 1), (1, 2), (2, 2)] then
            (easel.back.get? x y).map (Pixel.ofColor 0xFF000080).blend
          else easel.back.get? x y := by
  have hcells : (segment (-2) 0 2 2).cells =
      [(-2, 0), (-1, 1), (0, 1), (1, 2), (2, 2)] := by
    decide
  obtain ⟨-, -, -, -, -, -, back, hline, -, hback⟩ := easel.line_drawn_once (-2) 0 2 2
  rw [hcells] at hback
  exact ⟨hcells, back, hline, hback⟩

end Screen

end BrownLang
