import BrownLang.Proofs.Screen.Clipping

/-!
# The history of a canvas

A canvas is given commands, some of which fail.  Between them the place where
frames are kept may change, as other programs use it too: it may go, come back,
or be emptied.  What is on the screen, which keys are down and how many frames
have been presented is told by the commands and the answers to them alone.
-/

namespace BrownLang

inductive CanvasEvent where
  | command (d : DrawCommand)
  | storeChanges (store : FrameStore)

structure Answer where
  command : DrawCommand
  reply : Except CanvasFault DrawReply

namespace Answer

/-- A frame has been presented and, if frames are kept, saved. -/
def presents (a : Answer) : Bool := a.command = .present && a.reply.isOk

def works (k : Int) (a : Answer) : Bool :=
  (a.command = .pressKey k || a.command = .releaseKey k) && a.reply.isOk

end Answer

namespace Canvas

variable (c : Canvas)

def afterEvent : CanvasEvent → Canvas
  | .command d => (c.perform d).1
  | .storeChanges store => { c with screen.store := store }

def after (es : List CanvasEvent) : Canvas := es.foldl afterEvent c

def answers (c : Canvas) : List CanvasEvent → List Answer
  | [] => []
  | .command d :: es => ⟨d, (c.perform d).2⟩ :: answers (c.perform d).1 es
  | .storeChanges store :: es => answers { c with screen.store := store } es

@[simp] theorem after_nil : c.after [] = c := rfl

theorem after_append (es es' : List CanvasEvent) : c.after (es ++ es') = (c.after es).after es' :=
  List.foldl_append

@[simp] theorem after_concat (es : List CanvasEvent) (e : CanvasEvent) :
    c.after (es ++ [e]) = (c.after es).afterEvent e :=
  c.after_append es [e]

theorem answers_append (es es' : List CanvasEvent) :
    c.answers (es ++ es') = c.answers es ++ (c.after es).answers es' := by
  induction es generalizing c with
  | nil => rfl
  | cons e es ih =>
      cases e with
      | command d => exact congrArg (⟨d, (c.perform d).2⟩ :: ·) (ih (c.perform d).1)
      | storeChanges store => exact ih _

/-! ## Commands that fail -/

/-- A frame that cannot be saved has been shown; all else that fails does nothing. -/
theorem perform_of_error {d : DrawCommand} {e : CanvasFault} (h : (c.perform d).2 = .error e) :
    (c.perform d).1 = if d = .present then { c with screen.front := c.screen.back } else c := by
  cases d with
  | present =>
      rw [if_pos rfl]
      cases hstore : c.screen.store with
      | off | kept =>
          simp only [perform, Screen.present, hstore] at h
          cases h
      | missing dir => simp only [perform, Screen.present, hstore]
  | sprite index x y =>
      simp only [perform] at h ⊢
      cases hfind : c.sprites.find index with
      | ok texture =>
          rw [hfind] at h
          cases h
      | error e => rfl
  | createSprite data w height color =>
      simp only [perform] at h ⊢
      cases hcreate : c.sprites.create data w height color with
      | ok result =>
          rw [hcreate] at h
          cases h
      | error e => rfl
  | pressKey code | releaseKey code | isKeyPressed code =>
      simp only [perform] at h ⊢
      split at h
      · cases h
      · next hinvalid => rw [if_neg hinvalid, if_neg (by simp)]
  | _ => cases h

/-! ## What a command leaves as it is -/

structure ShowsSame (c c' : Canvas) : Prop where
  front_eq : c'.screen.front = c.screen.front
  presented_eq : c'.screen.presented = c.screen.presented
  store_eq : c'.screen.store = c.screen.store

/-- From `c` to `c'` nothing has changed that is for other commands than `d` to change. -/
structure Keeps (c : Canvas) (d : DrawCommand) (c' : Canvas) : Prop where
  shows : d ≠ .present → c.ShowsSame c'
  pressed : (∀ code, d ≠ .pressKey code ∧ d ≠ .releaseKey code) →
    c'.screen.pressed = c.screen.pressed
  closing : d ≠ .requestClose → c'.screen.closing = c.screen.closing
  sameSize : c.screen.back.SameSize c'.screen.back

theorem keeps_self (d : DrawCommand) : c.Keeps d c :=
  ⟨fun _ => ⟨rfl, rfl, rfl⟩, fun _ => rfl, fun _ => rfl, ⟨rfl, rfl⟩⟩

theorem keeps_drawn (d : DrawCommand) {back : Image} (h : c.screen.back.SameSize back) :
    c.Keeps d { c with screen.back := back } :=
  ⟨fun _ => ⟨rfl, rfl, rfl⟩, fun _ => rfl, fun _ => rfl, h⟩

theorem keeps_perform (d : DrawCommand) : c.Keeps d (c.perform d).1 := by
  cases d with
  | setColor => exact ⟨fun _ => ⟨rfl, rfl, rfl⟩, fun _ => rfl, fun _ => rfl, ⟨rfl, rfl⟩⟩
  | clear => exact c.keeps_drawn _ ⟨rfl, rfl⟩
  | pixel | fillRect => exact c.keeps_drawn _ (c.screen.back.sameSize_fill _ _ _ _ _)
  | line x₀ y₀ x₁ y₁ =>
      rw [perform, Screen.line_eq]
      exact c.keeps_drawn _ (Image.sameSize_foldl (fun im c => im.sameSize_fill _ _ _ _ _) _ _)
  | present =>
      simp only [perform, Screen.present]
      split <;> exact ⟨fun h => absurd rfl h, fun _ => rfl, fun _ => rfl, ⟨rfl, rfl⟩⟩
  | sprite =>
      simp only [perform]
      split
      · exact c.keeps_drawn _ (c.screen.back.sameSize_blit _ _ _)
      · exact c.keeps_self _
  | createSprite =>
      simp only [perform]
      split
      · exact ⟨fun _ => ⟨rfl, rfl, rfl⟩, fun _ => rfl, fun _ => rfl, ⟨rfl, rfl⟩⟩
      · exact c.keeps_self _
  | pressKey code =>
      simp only [perform]
      split
      · exact ⟨fun _ => ⟨rfl, rfl, rfl⟩, fun h => absurd rfl (h code).1, fun _ => rfl, ⟨rfl, rfl⟩⟩
      · exact c.keeps_self _
  | releaseKey code =>
      simp only [perform]
      split
      · exact ⟨fun _ => ⟨rfl, rfl, rfl⟩, fun h => absurd rfl (h code).2, fun _ => rfl, ⟨rfl, rfl⟩⟩
      · exact c.keeps_self _
  | isKeyPressed =>
      simp only [perform]
      split <;> exact c.keeps_self _
  | requestClose =>
      exact ⟨fun _ => ⟨rfl, rfl, rfl⟩, fun _ => rfl, fun h => absurd rfl h, ⟨rfl, rfl⟩⟩
  | pollClose | delay => exact c.keeps_self _

/-! ## Presenting -/

theorem front_present : (c.perform .present).1.screen.front = c.screen.back := by
  simp only [perform, Screen.present]
  split <;> rfl

theorem presented_perform (d : DrawCommand) : (c.perform d).1.screen.presented =
    c.screen.presented + if Answer.presents ⟨d, (c.perform d).2⟩ then 1 else 0 := by
  by_cases hd : d = .present
  · subst hd
    cases hstore : c.screen.store <;> simp only [perform, Screen.present, hstore] <;> rfl
  · have hnot : Answer.presents ⟨d, (c.perform d).2⟩ = false := by simp [Answer.presents, hd]
    rw [((c.keeps_perform d).shows hd).presented_eq, hnot]
    rfl

theorem front_after {later : List CanvasEvent} (h : .command .present ∉ later) :
    (c.after later).screen.front = c.screen.front := by
  induction later using List.reverseRecOn with
  | nil => rfl
  | append_singleton later e ih =>
      rw [List.mem_append, List.mem_singleton, not_or] at h
      rw [after_concat, ← ih h.1]
      cases e with
      | command d =>
          exact (((c.after later).keeps_perform d).shows fun hd => h.2 (hd ▸ rfl)).front_eq
      | storeChanges store => rfl

theorem presented_after (es : List CanvasEvent) :
    (c.after es).screen.presented =
      c.screen.presented + (c.answers es).countP Answer.presents := by
  induction es using List.reverseRecOn with
  | nil => rfl
  | append_singleton es e ih =>
      rw [after_concat, answers_append, List.countP_append, ← Nat.add_assoc, ← ih]
      cases e with
      | command d =>
          rw [afterEvent, presented_perform, answers, answers, List.countP_singleton]
      | storeChanges store => rfl

/-! ## Keys and the close button -/

theorem mem_pressed_perform (d : DrawCommand) (k : Int) :
    k ∈ (c.perform d).1.screen.pressed ↔
      if Answer.works k ⟨d, (c.perform d).2⟩ then d = .pressKey k else k ∈ c.screen.pressed := by
  cases d with
  | pressKey code | releaseKey code =>
      by_cases hvalid : validKey code
      · rw [perform, if_pos hvalid]
        by_cases hk : k = code
        · simp [Answer.works, Except.isOk, Except.toBool, hk]
        · simp [Answer.works, hk, Ne.symm hk]
      · rw [perform, if_neg hvalid]
        simp [Answer.works, Except.isOk, Except.toBool]
  | _ =>
      rw [(c.keeps_perform _).pressed fun code => by simp]
      simp [Answer.works]

theorem mem_pressed_after (es : List CanvasEvent) {k : Int} (h : k ∉ c.screen.pressed) :
    k ∈ (c.after es).screen.pressed ↔
      (((c.answers es).filter (Answer.works k)).getLast?.map Answer.command) =
        some (.pressKey k) := by
  induction es using List.reverseRecOn with
  | nil => simp [answers, h]
  | append_singleton es e ih =>
      rw [after_concat, answers_append, List.filter_append]
      cases e with
      | command d =>
          rw [afterEvent, mem_pressed_perform, answers, answers, ih]
          by_cases hworks : Answer.works k ⟨d, ((c.after es).perform d).2⟩ <;> simp [hworks]
      | storeChanges store =>
          rw [answers, answers, List.filter_nil, List.append_nil]
          exact ih

theorem perform_isKeyPressed (k : Int) : c.perform (.isKeyPressed k) =
    (c, if 0 ≤ k ∧ k < 512 then .ok (.flag (k ∈ c.screen.pressed))
      else .error (.invalidKey k)) := by
  have hvalid : validKey k = decide (0 ≤ k ∧ k < 512) := by
    rw [validKey, keyCount, Bool.decide_and]
  rw [perform, hvalid]
  by_cases h : 0 ≤ k ∧ k < 512
  · simp [h]
  · rw [if_neg (by simpa using h), if_neg h]

theorem closing_perform (d : DrawCommand) : (c.perform d).1.screen.closing =
    (c.screen.closing || d = .requestClose) := by
  by_cases hd : d = .requestClose
  · subst hd
    simp [perform]
  · simp [(c.keeps_perform d).closing hd, hd]

theorem closing_after (es : List CanvasEvent) :
    (c.after es).screen.closing ↔ c.screen.closing ∨ .command .requestClose ∈ es := by
  induction es using List.reverseRecOn with
  | nil => simp
  | append_singleton es e ih =>
      rw [after_concat, List.mem_append, List.mem_singleton, ← or_assoc, ← ih]
      cases e with
      | command d => simp [afterEvent, closing_perform, eq_comm (a := d)]
      | storeChanges store => simp [afterEvent]

/-! ## The size of the screen -/

theorem sameSize_after (es : List CanvasEvent) :
    c.screen.back.SameSize (c.after es).screen.back := by
  induction es using List.reverseRecOn with
  | nil => exact ⟨rfl, rfl⟩
  | append_singleton es e ih =>
      rw [after_concat]
      cases e with
      | command d =>
          have hlast := ((c.after es).keeps_perform d).sameSize
          exact ⟨hlast.1.trans ih.1, hlast.2.trans ih.2⟩
      | storeChanges store => exact ih

end Canvas

end BrownLang
