import BrownLang.Proofs.Screen.History
import BrownLang.Proofs.Screen.Textures
import BrownLang.Proofs.Text.Numerals

/-!
# Presenting frames

What is drawn goes to the back buffer, and only presenting it brings it to the
screen, so that later drawing changes neither what is shown nor a frame that is
kept.  Where frames are kept, each presentation adds one file, and the files are
numbered in order.
-/

namespace BrownLang

theorem Image.get?_scale (img : Image) {side x y : Nat} (hx : x < img.width * side)
    (hy : y < img.height * side) : (img.scale side).get? x y = img.get? (x / side) (y / side) := by
  have hcolumn : x / side < img.width := Nat.div_lt_of_lt_mul (Nat.mul_comm _ _ ▸ hx)
  have hrow : y / side < img.height := Nat.div_lt_of_lt_mul (Nat.mul_comm _ _ ▸ hy)
  obtain ⟨p, hp⟩ := img.get?_of_lt hcolumn hrow
  rw [scale, get?_generate _ _ _ hx hy, pixelAt_of_get? hp, hp]

/-! ## The names of files -/

/-- The digits in the name of a frame's file: five, or more if the number has more. -/
theorem frameFileName_digits (n : Nat) : ∃ digits : List Char,
    frameFileName n = "frame_" ++ String.ofList digits ++ ".png" ∧
      digits.length = max 5 (Nat.toDigits 10 n).length ∧ (∀ d ∈ digits, d.isDigit) ∧
      Text.ofDigits 10 digits = n := by
  refine ⟨(Text.zeroPadded 5 n).toList, ?_, ?_, fun d => Text.isDigit_of_mem_zeroPadded 5 n,
    Text.ofDigits_zeroPadded 5 n⟩
  · rw [frameFileName, String.ofList_toList]
  · rw [String.length_toList, Text.length_zeroPadded]

theorem frameFileName_injective : Function.Injective frameFileName := by
  intro j k h
  have hlist := congrArg String.toList h
  simp only [frameFileName, String.toList_append] at hlist
  have hnumeral := List.append_cancel_left (List.append_cancel_right hlist)
  exact Text.zeroPadded_injective 5 (String.toList_inj.mp hnumeral)

/-! ## The files -/

/-- The files of the frames kept, a square of side `side` in them for each pixel. -/
def Screen.files (s : Screen) (side : Nat) : List (String × Image) :=
  s.savedFrames.map fun f => (frameFileName f.1, f.2.scale side)

namespace Canvas

variable (c : Canvas)

def shown (c : Canvas) : List DrawCommand → List Image
  | [] => []
  | d :: ds =>
    let later := shown (c.perform d).1 ds
    if d = .present then c.screen.back :: later else later

theorem shown_append (ds ds' : List DrawCommand) :
    c.shown (ds ++ ds') = c.shown ds ++ (c.after (ds.map .command)).shown ds' := by
  induction ds generalizing c with
  | nil => rfl
  | cons d ds ih =>
      have ih := ih (c.perform d).1
      by_cases hd : d = .present <;> simpa [shown, hd, after, afterEvent] using ih

theorem length_shown (ds : List DrawCommand) : (c.shown ds).length = ds.count .present := by
  induction ds generalizing c with
  | nil => rfl
  | cons d ds ih =>
      by_cases hd : d = .present <;> simp [shown, hd, ih]

theorem kept_after (ds : List DrawCommand) {dir : String} {frames : List (Nat × Image)}
    (hstore : c.screen.store = .kept dir frames) :
    (c.after (ds.map .command)).screen.store =
        .kept dir ((((c.shown ds).zipIdx c.screen.presented).map Prod.swap).reverse ++ frames) ∧
      (c.after (ds.map .command)).screen.presented = c.screen.presented + ds.count .present := by
  induction ds generalizing c frames with
  | nil => exact ⟨hstore, rfl⟩
  | cons d ds ih =>
      have hafter : c.after ((d :: ds).map .command) =
        (c.perform d).1.after (ds.map .command) := rfl
      by_cases hd : d = .present
      · subst hd
        have hkept : (c.perform .present).1.screen.store =
            .kept dir ((c.screen.presented, c.screen.back) :: frames) := by
          simp only [perform, Screen.present, hstore]
        have hcounted : (c.perform .present).1.screen.presented = c.screen.presented + 1 := by
          simp only [perform, Screen.present, hstore]
        obtain ⟨hlater, hcount⟩ := ih _ hkept
        rw [hafter, hlater, hcount, hcounted]
        constructor
        · simp [shown, List.zipIdx_cons]
        · rw [List.count_cons_self]
          omega
      · have hsame := (c.keeps_perform d).shows hd
        obtain ⟨hlater, hcount⟩ := ih _ (hsame.store_eq.trans hstore)
        rw [hafter, hlater, hcount, hsame.presented_eq, List.count_cons_of_ne hd]
        exact ⟨by simp [shown, hd], rfl⟩

section

variable {c} {dir : String} (hstore : c.screen.store = .kept dir []) (ds : List DrawCommand)
  (side : Nat)
include hstore

theorem files_after : (c.after (ds.map .command)).screen.files side =
    ((c.shown ds).zipIdx c.screen.presented).map fun f => (frameFileName f.2, f.1.scale side) := by
  simp [Screen.files, Screen.savedFrames, (c.kept_after ds hstore).1]

theorem fileNames_after : ((c.after (ds.map .command)).screen.files side).map Prod.fst =
    (List.range' c.screen.presented (ds.count .present)).map frameFileName := by
  rw [files_after hstore, List.map_map, ← c.length_shown, ← List.zipIdx_map_snd, List.map_map]
  rfl

theorem getElem?_files_after {before later : List DrawCommand}
    (hds : ds = before ++ .present :: later) :
    ((c.after (ds.map .command)).screen.files side)[before.count .present]? =
      some (frameFileName (c.screen.presented + before.count .present),
        (c.after (before.map .command)).screen.back.scale side) := by
  have hshown : (c.shown ds)[before.count .present]? =
      some (c.after (before.map .command)).screen.back := by
    rw [hds, shown_append, shown, if_pos rfl, ← c.length_shown,
      List.getElem?_append_right (Nat.le_refl _), Nat.sub_self, List.getElem?_cons_zero]
  rw [files_after hstore, List.getElem?_map, List.getElem?_zipIdx, hshown]
  rfl

end

/--
Whatever is drawn, and whichever commands fail, the screen shows what was on the
back buffer when a frame was last presented.  A frame that cannot be saved is
shown but not counted, and all else that fails does nothing.  A key is down if
it was last pressed and not released, and a request to close stays.

While frames can be saved, each frame presented has a file of its own, which
shows what was on the back buffer then, with a square for each pixel.
-/
theorem double_buffered (width height : Nat) :
    (∀ (store : FrameStore) (es : List CanvasEvent),
      let start := ofScreen (.blank width height store)
      let c := start.after es
      (.command .present ∉ es → c.screen.front = .filled width height .transparent) ∧
      (∀ before later, es = before ++ .command .present :: later → .command .present ∉ later →
        c.screen.front = (start.after before).screen.back) ∧
      c.screen.presented = (start.answers es).countP Answer.presents ∧
      (∀ d e, (c.perform d).2 = .error e →
        (c.perform d).1 =
          if d = .present then { c with screen.front := c.screen.back } else c) ∧
      (∀ k,
        let latest := ((start.answers es).filter (Answer.works k)).getLast?
        c.perform (.isKeyPressed k) =
          (c, if 0 ≤ k ∧ k < 512 then
              .ok (.flag (latest.map Answer.command = some (.pressKey k)))
            else .error (.invalidKey k))) ∧
      ∃ b, c.perform .pollClose = (c, .ok (.flag b)) ∧
        (b = true ↔ .command .requestClose ∈ es)) ∧
    ∀ (dir : String) (ds : List DrawCommand) (side : Nat),
      let start := ofScreen (.blank width height (.kept dir []))
      let c := start.after (ds.map .command)
      let names := (List.range (ds.count .present)).map frameFileName
      c.screen.presented = ds.count .present ∧
      (c.screen.files side).map Prod.fst = names ∧ names.Nodup ∧
      (∀ k, ∃ digits : List Char,
        frameFileName k = "frame_" ++ String.ofList digits ++ ".png" ∧
          digits.length = max 5 (Nat.toDigits 10 k).length ∧ (∀ d ∈ digits, d.isDigit) ∧
          Text.ofDigits 10 digits = k) ∧
      ∀ before later, ds = before ++ .present :: later → ∃ img,
        (c.screen.files side)[before.count .present]? =
          some (frameFileName (before.count .present), img) ∧
        img.width = width * side ∧ img.height = height * side ∧
        ∀ x < width * side, ∀ y < height * side, img.get? x y =
          (start.after (before.map .command)).screen.back.get? (x / side) (y / side) := by
  constructor
  · intro store es start c
    refine ⟨fun hes => ?first, fun before later hes hlater => ?latest, ?count,
      fun d e he => c.perform_of_error he, fun k => ?key, c.screen.closing, rfl, ?close⟩
    case first => exact start.front_after hes
    case latest =>
      have hc : c = ((start.after before).perform .present).1.after later := by
        rw [show c = start.after es from rfl, hes, after_append]
        rfl
      rw [hc, front_after _ hlater, front_present]
    case count => exact (start.presented_after es).trans (Nat.zero_add _)
    case key =>
      have hdown := start.mem_pressed_after es (List.not_mem_nil (a := k))
      rw [perform_isKeyPressed]
      simp only [← hdown]
      rfl
    case close =>
      rw [start.closing_after es]
      exact or_iff_right Bool.false_ne_true
  · intro dir ds side start c names
    have hstore : start.screen.store = .kept dir [] := rfl
    refine ⟨?count, ?names, ?distinct, frameFileName_digits, fun before later hds => ?file⟩
    case count => exact (start.kept_after ds hstore).2.trans (Nat.zero_add _)
    case names =>
      have hnames := fileNames_after hstore ds side
      rwa [show start.screen.presented = 0 from rfl, ← List.range_eq_range'] at hnames
    case distinct => exact List.nodup_range.map frameFileName_injective
    case file =>
      have hfile := getElem?_files_after hstore ds side hds
      obtain ⟨hwidth, hheight⟩ := start.sameSize_after (before.map .command)
      rw [show start.screen.presented = 0 from rfl, Nat.zero_add] at hfile
      refine ⟨_, hfile, ?_, ?_, fun x hx y hy => ?_⟩
      · exact congrArg (· * side) hwidth
      · exact congrArg (· * side) hheight
      · exact Image.get?_scale _ (hwidth.symm ▸ hx) (hheight.symm ▸ hy)

def strokes : List DrawCommand :=
  [.setColor 0xFF0000FF, .pixel 0 0, .present, .pixel 1 0, .present, .clear]

def rehearsal : List CanvasEvent :=
  .command (.pressKey 40) :: (strokes.take 3).map .command ++
    .storeChanges (.missing "out") :: .command (.pressKey 512) :: (strokes.drop 3).map .command

theorem rehearsal_double_buffered :
    let c := (ofScreen (.blank 2 1 .off)).after rehearsal
    let kept := (ofScreen (.blank 2 1 (.kept "out" []))).after (strokes.map .command)
    (c.screen.front.get? 1 0 = some ⟨255, 0, 0, 255⟩ ∧ c.screen.presented = 1 ∧
      (c.perform .present).1 = { c with screen.front := c.screen.back } ∧
      c.perform (.isKeyPressed 40) = (c, .ok (.flag true)) ∧
      c.perform .pollClose = (c, .ok (.flag false))) ∧
    ∃ img, (kept.screen.files 2)[1]? = some ("frame_00001.png", img) ∧
      img.get? 1 1 = some ⟨255, 0, 0, 255⟩ ∧ img.get? 2 1 = some ⟨255, 0, 0, 255⟩ := by
  intro c kept
  obtain ⟨hruns, hfiles⟩ := double_buffered 2 1
  constructor
  · obtain ⟨-, hlatest, hcount, hfails, hkey, b, hpoll, hclose⟩ := hruns .off rehearsal
    have hfront := hlatest (rehearsal.take 7) [.command .clear] rfl (by simp)
    have hopen : b = false := by
      rw [← Bool.not_eq_true, hclose]
      simp [rehearsal, strokes]
    refine ⟨?_, hcount.trans (by decide), hfails .present (.frameNotSaved "out/frame_00001.png") ?_,
      (hkey 40).trans (congrArg (Prod.mk c) ?_), hopen ▸ hpoll⟩
    · rw [hfront]
      decide
    · decide
    · decide
  · obtain ⟨-, -, -, -, hfile⟩ := hfiles "out" strokes 2
    obtain ⟨img, himg, -, -, hpixels⟩ := hfile (strokes.take 4) [.clear] rfl
    have hleft := hpixels 1 (by decide) 1 (by decide)
    have hright := hpixels 2 (by decide) 1 (by decide)
    exact ⟨img, himg, hleft.trans (by decide), hright.trans (by decide)⟩

end Canvas

end BrownLang
