import BrownLang.Proofs.Execution.Transition
import BrownLang.Proofs.Memory.Accesses
import BrownLang.Proofs.Screen.Drawing
import BrownLang.Proofs.Screen.Textures

/-!
# Sprites of a running program

A program makes its sprites of bytes in memory.  The width of a sprite and the
place of its bytes are checked before the sprite is made, so that a sprite
always gets as many bytes as it needs.  What it looks like is settled then: the
program can neither change nor remove it.
-/

namespace BrownLang

/-! ## Making a sprite -/

namespace Exec

variable {addr w h : Nat} (color : Nat) {s : State}

theorem readBytes_eq (s : State) (a n : Nat) :
    readBytes a n s = s.afterRead (s.memory.readBytes a n) :=
  lift_mapError s _

theorem perform_eq (c : DrawCommand) (s : State) :
    perform c s = lift ((s.canvas.perform c).2.mapError .canvas)
      { s with canvas := (s.canvas.perform c).1 } :=
  rfl

theorem createSprite_of_le (hw : w % 8 = 0) (hfits : addr + w / 8 * h ≤ s.memory.size) :
    ∃ texture : Image,
      createSprite addr w h color s = .ok s.canvas.sprites.size
        { s with canvas.sprites := s.canvas.sprites.push texture } ∧
      texture.Shows (fun i => s.memory.byteAt (addr + i)) w h (.ofColor color) := by
  let data := (List.range (w / 8 * h)).map fun i => s.memory.byteAt (addr + i)
  have hbytes : readBytes addr (w / 8 * h) s = .ok data s := by
    rw [readBytes_eq, s.memory.readBytes_of_le addr hfits, List.range'_eq_map_range, List.map_map]
    rfl
  have hcreate : s.canvas.sprites.create data w h color = .ok
      (s.canvas.sprites.push (Sprites.monochrome data w h (.ofColor color)),
        s.canvas.sprites.size) :=
    Sprites.create_eq_ok.mpr ⟨⟨hw, by simp [data]⟩, rfl, rfl⟩
  refine ⟨Sprites.monochrome data w h (.ofColor color), ?_, Sprites.monochrome_shows hw _ _⟩
  rw [createSprite, bind_of_ok hbytes, bind_apply, perform_eq, Canvas.perform, hcreate]
  rfl

theorem createSprite_of_not_le (hfits : ¬ addr + w / 8 * h ≤ s.memory.size) :
    createSprite addr w h color s =
      .error (.fault (.memory ⟨.readByte, max addr s.memory.size, s.memory.size⟩)) s := by
  have hbytes : readBytes addr (w / 8 * h) s =
      .error (.fault (.memory ⟨.readByte, max addr s.memory.size, s.memory.size⟩)) s := by
    rw [readBytes_eq, Memory.readBytes, if_neg hfits]
    rfl
  rw [createSprite, bind_of_error hbytes]

end Exec

/-! ## Keeping the sprites -/

def State.SpritesKept (s t : State) : Prop :=
  s.canvas.sprites.toList <+: t.canvas.sprites.toList

def Coupling.keepingSprites : Coupling :=
  .along State.SpritesKept (fun _ => List.prefix_rfl) fun _ _ _ => List.IsPrefix.trans

namespace Machine

theorem covers_keepingSprites (p : Program) (o : Options) :
    Coupling.keepingSprites.Covers p o o := by
  refine Coupling.covers_along fun s t h => ?_
  cases h with
  | perform c => exact s.canvas.sprites_prefix_perform c
  | _ => exact List.prefix_rfl

variable {m : Machine}

theorem getElem?_sprites_of_leads {s t : State} (h : m.Leads s t) {i : Nat} {texture : Image}
    (hi : s.canvas.sprites[i]? = some texture) : t.canvas.sprites[i]? = some texture := by
  have hkept : s.SpritesKept t :=
    (covers_keepingSprites m.program m.options).of_leads (fun _ _ => List.prefix_rfl) h
  rw [← Array.getElem?_toList] at hi ⊢
  obtain ⟨more, hmore⟩ := hkept
  obtain ⟨hlt, -⟩ := List.getElem?_eq_some_iff.mp hi
  rw [← hmore, List.getElem?_append_left hlt, hi]

/-! ## Calls -/

theorem caller_createSprite (m : Machine) (fuel addr w h color : Nat) :
    m.caller fuel "create_sprite_mono" [addr, w, h, color] =
      if w % 8 ≠ 0 then Exec.fail (.canvas (.spriteWidth w))
      else Exec.createSprite addr w h color :=
  rfl

/--
A sprite is made just if its width is a multiple of eight and its bytes are in
memory.  It gets the next number, and its pixels are the bits of its bytes, the
highest of each first.  If it is not made then nothing changes, and the error
names its width or the first of its bytes that is missing, never their number.
A sprite that has been made stays as it is for ever.
-/
theorem sprite_made_of_memory (m : Machine) (fuel addr w h color : Nat) (s : State) :
    let call := m.caller fuel "create_sprite_mono" [addr, w, h, color] s
    let fits := addr + w / 8 * h ≤ s.memory.size
    ((∃ n t, call = .ok n t) ↔ w % 8 = 0 ∧ fits) ∧
    (w % 8 = 0 ∧ fits → ∃ texture : Image,
      call = .ok s.canvas.sprites.size
        { s with canvas.sprites := s.canvas.sprites.push texture } ∧
      texture.Shows (fun i => s.memory.byteAt (addr + i)) w h (.ofColor color)) ∧
    (w % 8 ≠ 0 → ∃ f, call = .error (.fault f) s ∧ f = .canvas (.spriteWidth w) ∧
      f.title = "GraphicsError") ∧
    (w % 8 = 0 → ¬ fits → ∃ f, call = .error (.fault f) s ∧
      f = .memory ⟨.readByte, max addr s.memory.size, s.memory.size⟩ ∧
      f.title = "U8ReadOutOfBounds") ∧
    (∀ w' h' given t, call ≠ .error (.fault (.canvas (.spriteBytes w' h' given))) t) ∧
    ∀ t u, m.Leads t u → ∀ (i : Nat) (texture : Image),
      t.canvas.sprites[i]? = some texture → u.canvas.sprites[i]? = some texture := by
  intro call fits
  have hcall : call = (if w % 8 ≠ 0 then Exec.fail (.canvas (.spriteWidth w))
      else Exec.createSprite addr w h color) s :=
    congrFun (m.caller_createSprite fuel addr w h color) s
  have hwidth (hw : w % 8 ≠ 0) : call = .error (.fault (.canvas (.spriteWidth w))) s := by
    rw [hcall, if_pos hw]
    rfl
  have hmissing (hw : w % 8 = 0) (hfits : ¬ fits) : call =
      .error (.fault (.memory ⟨.readByte, max addr s.memory.size, s.memory.size⟩)) s := by
    rw [hcall, if_neg (not_not_intro hw)]
    exact Exec.createSprite_of_not_le color hfits
  have hmade (hw : w % 8 = 0) (hfits : fits) : ∃ texture : Image,
      call = .ok s.canvas.sprites.size
        { s with canvas.sprites := s.canvas.sprites.push texture } ∧
      texture.Shows (fun i => s.memory.byteAt (addr + i)) w h (.ofColor color) := by
    rw [hcall, if_neg (not_not_intro hw)]
    exact Exec.createSprite_of_le color hw hfits
  have hfails (h : ¬ (w % 8 = 0 ∧ fits)) : call = .error (.fault (.canvas (.spriteWidth w))) s ∨
      call = .error (.fault (.memory ⟨.readByte, max addr s.memory.size, s.memory.size⟩)) s := by
    by_cases hw : w % 8 = 0
    · exact .inr (hmissing hw fun hfits => h ⟨hw, hfits⟩)
    · exact .inl (hwidth hw)
  refine ⟨⟨?succeeds, ?fits⟩, fun ⟨hw, hfits⟩ => hmade hw hfits,
    fun hw => ⟨_, hwidth hw, rfl, rfl⟩, fun hw hfits => ⟨_, hmissing hw hfits, rfl, rfl⟩, ?count,
    fun t u hleads i texture => getElem?_sprites_of_leads hleads⟩
  case succeeds =>
    rintro ⟨n, t, hok⟩
    by_contra h
    rcases hfails h with hcall | hcall <;> rw [hcall] at hok <;> cases hok
  case fits =>
    rintro ⟨hw, hfits⟩
    obtain ⟨texture, hok, -⟩ := hmade hw hfits
    exact ⟨_, _, hok⟩
  case count =>
    intro w' h' given t herror
    by_cases h : w % 8 = 0 ∧ fits
    · obtain ⟨texture, hok, -⟩ := hmade h.1 h.2
      rw [hok] at herror
      cases herror
    · rcases hfails h with hcall | hcall <;> rw [hcall] at herror <;> cases herror

/-- A machine with two bytes of data, `10100000` and `00000001`. -/
def stencil : Machine where
  program := { code := #[], data := [0xA0, 0x01], labels := [], dataLabels := [] }
  options := {}

def stencil.state : State := stencil.start (.ofScreen .easel) (.scripted [] [])

theorem stencil_sprite_made :
    (∃ (texture : Image) (t : State),
      stencil.caller 0 "create_sprite_mono" [0, 8, 2, 0xFF0000FF] stencil.state = .ok 0 t ∧
      texture.get? 1 0 = some ⟨0, 0, 0, 0⟩ ∧ texture.get? 2 0 = some ⟨255, 0, 0, 255⟩ ∧
      texture.get? 7 1 = some ⟨255, 0, 0, 255⟩ ∧
      (stencil.run 5 t).2.canvas.sprites[0]? = some texture) ∧
    stencil.caller 0 "create_sprite_mono" [1, 8, 2, 0] stencil.state =
      .error (.fault (.memory ⟨.readByte, 2, 2⟩)) stencil.state ∧
    stencil.caller 0 "create_sprite_mono" [0, 12, 2, 0] stencil.state =
      .error (.fault (.canvas (.spriteWidth 12))) stencil.state := by
  obtain ⟨-, hmade, -, -, -, hkept⟩ :=
    sprite_made_of_memory stencil 0 0 8 2 0xFF0000FF stencil.state
  obtain ⟨-, -, -, hmissing, -⟩ := sprite_made_of_memory stencil 0 1 8 2 0 stencil.state
  obtain ⟨-, -, hwidth, -⟩ := sprite_made_of_memory stencil 0 0 12 2 0 stencil.state
  obtain ⟨texture, hok, hshows⟩ := hmade (by decide)
  obtain ⟨_, hmissing, rfl, -⟩ := hmissing (by decide) (by decide)
  obtain ⟨_, hwidth, rfl, -⟩ := hwidth (by decide)
  refine ⟨⟨texture, _, hok, ?_, ?_, ?_, ?_⟩, hmissing, hwidth⟩
  · rw [hshows.pixel 0 (by decide) 1 (by decide)]
    decide
  · rw [hshows.pixel 0 (by decide) 2 (by decide)]
    decide
  · rw [hshows.pixel 1 (by decide) 7 (by decide)]
    decide
  · exact hkept _ _ (stencil.leads_run 5 _) 0 texture rfl

end Machine

end BrownLang
