import BrownLang.Proofs.Execution.Local
import BrownLang.Proofs.Execution.Sprites
import BrownLang.Proofs.Screen.History

/-!
# What built-in functions touch

A built-in function works on the output, the canvas and the random numbers and
on nothing else.  It checks all that it is given before it begins, so that one
that refuses its arguments has not done anything.  Only the output device, and
the place where frames are kept, can fail when part of the work is done.
-/

namespace BrownLang

/-- The fault is one of a built-in function that cannot use what it is given. -/
def Fault.IsRefusal (f : Fault) : Prop :=
  f.title ∈ ["IntrinsicArgumentMismatch", "IntrinsicValueError", "InvalidCharacterValue",
    "U8ReadOutOfBounds", "GraphicsError"] ∧
  ∀ path, f ≠ .canvas (.frameNotSaved path)

theorem SinkFailure.not_isRefusal_fault (failure : SinkFailure) : ¬ failure.fault.IsRefusal := by
  cases failure <;> simp [fault, Fault.IsRefusal, Fault.title]

theorem Fault.title_of_mapError_memory {α : Type} {r : Except OutOfBounds α} {f : Fault}
    (h : r.mapError .memory = .error f) : f.title ≠ "IntrinsicArgumentMismatch" := by
  cases r with
  | ok a => cases h
  | error e =>
      cases h
      cases haccess : e.access <;> simp [title, Access.faultTitle, haccess]

theorem Canvas.present_eq_error (c : Canvas) {e : CanvasFault}
    (h : (c.perform .present).2 = .error e) : ∃ path, e = .frameNotSaved path := by
  cases hstore : c.screen.store with
  | off | kept =>
      simp only [perform, Screen.present, hstore] at h
      cases h
  | missing dir =>
      simp only [perform, Screen.present, hstore] at h
      cases h
      exact ⟨_, rfl⟩

namespace Exec

variable {α β : Type}

def Firm (x : Exec α) : Prop :=
  ∀ s f t, x s = .error (.fault f) t → ¬ f.IsRefusal

theorem Firm.pure (a : α) : Firm (pure a : Exec α) := by
  intro s f t h
  cases h

theorem Firm.throw_exit (code : Nat) : Firm (throw (.exit code) : Exec α) := by
  intro s f t h
  cases h

theorem Firm.bind {x : Exec α} {f : α → Exec β} (hx : Firm x) (hf : ∀ a, Firm (f a)) :
    Firm (x >>= f) := by
  intro s fault t h
  rcases bind_eq_error.mp h with hfirst | ⟨a, u, -, hsecond⟩
  · exact hx s fault t hfirst
  · exact hf a u fault t hsecond

/--
The action keeps memory and the places of the variables.  A refusal finds the
state as it was, and is never about the number of arguments.
-/
structure Confined (x : Exec α) : Prop where
  kept : ∀ s, (Result.state (x s)).memory = s.memory ∧ (Result.state (x s)).vars = s.vars
  refusal : ∀ s f t, x s = .error (.fault f) t → f.IsRefusal →
    f.title ≠ "IntrinsicArgumentMismatch" ∧ t = s

theorem Firm.confined {x : Exec α} (hx : Firm x)
    (hkept : ∀ s, (Result.state (x s)).memory = s.memory ∧ (Result.state (x s)).vars = s.vars) :
    Confined x :=
  ⟨hkept, fun s f t h hf => absurd hf (hx s f t h)⟩

namespace Confined

theorem pure (a : α) : Confined (pure a : Exec α) :=
  (Firm.pure a).confined fun _ => ⟨rfl, rfl⟩

theorem throw_exit (code : Nat) : Confined (throw (.exit code) : Exec α) :=
  (Firm.throw_exit code).confined fun _ => ⟨rfl, rfl⟩

theorem fail {f : Fault} (hf : f.title ≠ "IntrinsicArgumentMismatch") :
    Confined (fail f : Exec α) where
  kept _ := ⟨rfl, rfl⟩
  refusal s g t h _ := by
    cases h
    exact ⟨hf, rfl⟩

theorem get_bind {f : State → Exec β} (hf : ∀ s, Confined (f s)) : Confined (get >>= f) :=
  ⟨fun s => (hf s).kept s, fun s => (hf s).refusal s⟩

theorem lift_bind {r : Except Fault α} {f : α → Exec β}
    (hr : ∀ g, r = .error g → g.title ≠ "IntrinsicArgumentMismatch") (hf : ∀ a, Confined (f a)) :
    Confined (lift r >>= f) := by
  cases r with
  | ok a => exact hf a
  | error g => exact fail (hr g rfl)

/-- What follows anything else must not refuse, as the state may have changed by then. -/
theorem bind {x : Exec α} {f : α → Exec β} (hx : Confined x) (hf : ∀ a, Confined (f a))
    (hfirm : ∀ a, Firm (f a)) : Confined (x >>= f) := by
  constructor
  case kept =>
    intro s
    have hfirst := hx.kept s
    cases h : x s with
    | ok a u =>
        rw [h] at hfirst
        have hsecond := (hf a).kept u
        rw [bind_of_ok h]
        exact ⟨hsecond.1.trans hfirst.1, hsecond.2.trans hfirst.2⟩
    | error e u =>
        rw [h] at hfirst
        rw [bind_of_error h]
        exact hfirst
  case refusal =>
    intro s g t h hg
    rcases bind_eq_error.mp h with hfirst | ⟨a, u, -, hsecond⟩
    · exact hx.refusal s g t hfirst hg
    · exact absurd hg (hfirm a u g t hsecond)

end Confined

/-! ## Output, random numbers and drawing -/

theorem firm_write (sink : Sink) (text : String) : Firm (write sink text) := by
  intro s f t h
  cases sink with
  | steady => cases h
  | failing limit failure =>
      by_cases hlt : s.writes.size < limit
      · rw [write_takes (.failing limit failure) hlt] at h
        cases h
      · rw [write_refuses hlt] at h
        cases h
        exact failure.not_isRefusal_fault

theorem confined_write (sink : Sink) (text : String) : Confined (write sink text) := by
  refine (firm_write sink text).confined fun s => ?_
  cases sink with
  | steady => exact ⟨rfl, rfl⟩
  | failing limit failure =>
      by_cases hlt : s.writes.size < limit
      · rw [write_takes (.failing limit failure) hlt]
        exact ⟨rfl, rfl⟩
      · rw [write_refuses hlt]
        exact ⟨rfl, rfl⟩

theorem firm_writeAll (sink : Sink) (texts : List String) : Firm (writeAll sink texts) := by
  induction texts with
  | nil => exact .pure ()
  | cons t ts ih => exact (firm_write sink t).bind fun _ => ih

theorem confined_writeAll (sink : Sink) (texts : List String) :
    Confined (writeAll sink texts) := by
  induction texts with
  | nil => exact .pure ()
  | cons t ts ih => exact (confined_write sink t).bind (fun _ => ih) fun _ => firm_writeAll sink ts

theorem confined_draw (low high : Nat) : Confined (draw low high) := by
  have hfirm : Firm (draw low high) := by
    intro s f t h
    cases h
  exact hfirm.confined fun _ => ⟨rfl, rfl⟩

theorem confined_perform (c : DrawCommand) : Confined (perform c) := by
  constructor
  case kept =>
    intro s
    rw [perform_eq]
    cases (s.canvas.perform c).2 <;> exact ⟨rfl, rfl⟩
  case refusal =>
    intro s f t h hf
    rw [perform_eq] at h
    cases hreply : (s.canvas.perform c).2 with
    | ok reply =>
        rw [hreply] at h
        cases h
    | error e =>
        -- presenting is the one command that does its work before it fails
        have hpresent : c ≠ .present := by
          rintro rfl
          obtain ⟨path, rfl⟩ := s.canvas.present_eq_error hreply
          rw [hreply] at h
          cases h
          exact hf.2 path rfl
        have hcanvas : (s.canvas.perform c).1 = s.canvas := by
          rw [s.canvas.perform_of_error hreply, if_neg hpresent]
        rw [hreply, hcanvas] at h
        cases h
        exact ⟨by simp [Fault.title], rfl⟩

end Exec

/-! ## Built-in functions -/

namespace Builtin

open Exec

theorem confined_command (c : DrawCommand) : Confined (command c) :=
  (confined_perform c).bind (fun _ => .pure 0) fun _ => .pure 0

theorem confined_body (sink : Sink) (b : Builtin) (args : List Nat) :
    Confined (b.body sink args) := by
  have output (texts : List String) : Confined (do Exec.writeAll sink texts; pure 0 : Exec Nat) :=
    (confined_writeAll sink texts).bind (fun _ => .pure 0) fun _ => .pure 0
  unfold body
  split
  case h_1 | h_2 | h_3 => exact output _
  case h_4 =>
    split
    · exact (confined_write _ _).bind (fun _ => .pure 0) fun _ => .pure 0
    · exact .fail (by simp [Fault.title])
  case h_5 => exact .throw_exit 0
  case h_6 => exact confined_draw _ _
  case h_7 =>
    split
    · exact confined_draw _ _
    · exact .fail (by simp [Fault.title])
  case h_13 =>
    refine (confined_perform _).bind (fun reply => ?_) fun reply => ?_ <;> split <;> exact .pure _
  case h_16 =>
    refine (confined_perform _).bind (fun reply => ?_) fun reply => ?_ <;> split <;>
      first | exact .throw_exit 0 | exact .pure 0
  case h_17 =>
    split
    · exact .fail (by simp [Fault.title])
    · refine .get_bind fun s => .lift_bind (fun g hg => ?_) fun data => ?_
      · exact Fault.title_of_mapError_memory hg
      · refine (confined_perform _).bind (fun reply => ?_) fun reply => ?_ <;> split <;>
          exact .pure _
  case h_19 => exact .pure 0
  all_goals apply confined_command

theorem checkCount_eq_error {name : String} {accepted : Option (List Int)} {given : Nat}
    {f : Fault} : checkCount name accepted given = .error f ↔
      ∃ counts, accepted = some counts ∧ (given : Int) ∉ counts ∧
        f = .builtinArity name counts given := by
  cases accepted with
  | none => simp [checkCount]
  | some counts =>
      by_cases h : (given : Int) ∈ counts
      · simp [checkCount, h]
      · simp [checkCount, h, eq_comm]

theorem invoke_of_checkCount_error {sink : Sink} {b : Builtin} {args : List Nat} {f : Fault}
    (h : checkCount b.name b.accepted args.length = .error f) (s : State) :
    b.invoke sink args s = .error (.fault f) s := by
  rw [invoke, h]
  rfl

theorem invoke_of_checkCount_ok {sink : Sink} {b : Builtin} {args : List Nat} {u : Unit}
    (h : checkCount b.name b.accepted args.length = .ok u) :
    b.invoke sink args = b.body sink args := by
  rw [invoke, h]
  rfl

/--
However a built-in function ends, memory, the places of the variables, the
instruction, the calls and the journal are as they were.  If it refuses what it
is given then nothing at all has changed.  It refuses the number of arguments
just if that is none of those that it takes.
-/
theorem invoke_touches_its_own (sink : Sink) (b : Builtin) (args : List Nat) (s : State) :
    let result := b.invoke sink args s
    let t := Result.state result
    let miscounted := ∃ counts, b.accepted = some counts ∧ (args.length : Int) ∉ counts
    (t.memory = s.memory ∧ t.vars = s.vars ∧ t.ip = s.ip ∧ t.calls = s.calls ∧
      t.journal = s.journal ∧ t.nextFrame = s.nextFrame ∧ t.exitCode = s.exitCode) ∧
    (∀ f, result = .error (.fault f) t → f.IsRefusal → t = s) ∧
    ((∃ f, result = .error (.fault f) t ∧ f.title = "IntrinsicArgumentMismatch") ↔ miscounted) ∧
    ∀ counts, b.accepted = some counts → (args.length : Int) ∉ counts →
      result = .error (.fault (.builtinArity b.name counts args.length)) s := by
  intro result t miscounted
  have hcontrol : t.control = s.control := (local_invoke sink b args).control_eq s
  have hmiscounted (counts) (haccepted : b.accepted = some counts)
      (hcount : (args.length : Int) ∉ counts) :
      result = .error (.fault (.builtinArity b.name counts args.length)) s :=
    invoke_of_checkCount_error (checkCount_eq_error.mpr ⟨counts, haccepted, hcount, rfl⟩) s
  have hstore : (t.memory = s.memory ∧ t.vars = s.vars) ∧
      ∀ f, result = .error (.fault f) t → f.IsRefusal →
        t = s ∧ (f.title = "IntrinsicArgumentMismatch" → miscounted) := by
    cases hcheck : checkCount b.name b.accepted args.length with
    | error g =>
        obtain ⟨counts, haccepted, hcount, rfl⟩ := checkCount_eq_error.mp hcheck
        have ht : t = s := congrArg Result.state (hmiscounted counts haccepted hcount)
        exact ⟨by simp [ht], fun f _ _ => ⟨ht, fun _ => ⟨counts, haccepted, hcount⟩⟩⟩
    | ok u =>
        have hbody := confined_body sink b args
        rw [← invoke_of_checkCount_ok hcheck] at hbody
        refine ⟨hbody.kept s, fun f hf hrefusal => ?_⟩
        obtain ⟨htitle, ht⟩ := hbody.refusal s f t hf hrefusal
        exact ⟨ht, fun h => absurd h htitle⟩
  obtain ⟨⟨hmemory, hvars⟩, hrefusal⟩ := hstore
  refine ⟨⟨hmemory, hvars, ?_, ?_, ?_, ?_, ?_⟩, fun f hf h => (hrefusal f hf h).1, ⟨?_, ?_⟩,
    hmiscounted⟩
  · exact congrArg Control.ip hcontrol
  · exact congrArg Control.calls hcontrol
  · exact congrArg Control.journal hcontrol
  · exact congrArg Control.nextFrame hcontrol
  · exact congrArg Control.exitCode hcontrol
  · rintro ⟨f, hf, htitle⟩
    have hf' : f.IsRefusal := ⟨by simp [htitle], by rintro path rfl; simp [Fault.title] at htitle⟩
    exact (hrefusal f hf hf').2 htitle
  · rintro ⟨counts, haccepted, hcount⟩
    have ht : t = s := congrArg Result.state (hmiscounted counts haccepted hcount)
    exact ⟨_, ht ▸ hmiscounted counts haccepted hcount, rfl⟩

theorem stencil_miscounted :
    (∃ counts, sprite.accepted = some counts ∧ (2 : Int) ∉ counts) ∧
    ∃ f, sprite.invoke .steady [0, 7] Machine.stencil.state =
        .error (.fault f) Machine.stencil.state ∧
      f.title = "IntrinsicArgumentMismatch" ∧ f.message = "sprite expects 3 arguments, 2 given" := by
  obtain ⟨-, -, -, hcounted⟩ :=
    invoke_touches_its_own .steady sprite [0, 7] Machine.stencil.state
  exact ⟨⟨[3], rfl, by decide⟩, _, hcounted [3] rfl (by decide), rfl, by decide⟩

end Builtin

end BrownLang
