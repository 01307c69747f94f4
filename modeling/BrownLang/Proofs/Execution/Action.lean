import BrownLang.Machine.Builtin

/-!
# Actions that leave the control alone

A state has two halves: the store, which a program can see, and the control,
which says where the program is and how it came there.  Reading and writing
variables and memory, output, drawing and random numbers work on the store
only: such an action does the same whatever the control is.  They also never
shrink memory nor move a variable.
-/

namespace BrownLang

structure Store where
  memory : Memory
  vars : Table
  canvas : Canvas
  writes : Array String
  generator : Generator

structure Control where
  ip : Nat
  journal : Journal
  calls : List Frame
  nextFrame : Nat
  exitCode : Option Nat

namespace State

def store (s : State) : Store := ⟨s.memory, s.vars, s.canvas, s.writes, s.generator⟩

def control (s : State) : Control := ⟨s.ip, s.journal, s.calls, s.nextFrame, s.exitCode⟩

def withControl (s : State) (c : Control) : State :=
  { s with
    ip := c.ip
    journal := c.journal
    calls := c.calls
    nextFrame := c.nextFrame
    exitCode := c.exitCode }

@[simp] theorem withControl_control (s : State) : s.withControl s.control = s := rfl

theorem eq_withControl_of_store_eq {s t : State} (h : s.store = t.store) :
    s = t.withControl s.control := by
  obtain ⟨⟩ := s
  obtain ⟨⟩ := t
  simp only [store, Store.mk.injEq] at h
  obtain ⟨rfl, rfl, rfl, rfl, rfl⟩ := h
  rfl

/--
Memory has only grown, every variable stands where it stood, and a variable
that is new has its word inside memory.
-/
structure Grows (s t : State) : Prop where
  size_le : s.memory.size ≤ t.memory.size
  kept : ∀ x a, s.vars.lookup x = some a → t.vars.lookup x = some a
  fresh : ∀ x a, t.vars.lookup x = some a →
    s.vars.lookup x = some a ∨ a + 4 ≤ t.memory.size

theorem Grows.refl (s : State) : Grows s s :=
  ⟨Nat.le_refl _, fun _ _ h => h, fun _ _ h => .inl h⟩

theorem Grows.trans {s t u : State} (h : Grows s t) (k : Grows t u) : Grows s u where
  size_le := Nat.le_trans h.size_le k.size_le
  kept x a hx := k.kept x a (h.kept x a hx)
  fresh x a hx := by
    rcases k.fresh x a hx with ht | hin
    · rcases h.fresh x a ht with hs | hin
      · exact .inl hs
      · exact .inr (Nat.le_trans hin k.size_le)
    · exact .inr hin

theorem Grows.of_eq {s t : State} (hm : t.memory.size = s.memory.size) (hv : t.vars = s.vars) :
    Grows s t :=
  ⟨by omega, fun x a h => by rwa [hv], fun x a h => .inl (by rwa [hv] at h)⟩

end State

namespace Exec

variable {α β : Type}

/-! ## Sequencing -/

theorem get_bind (f : State → Exec α) (s : State) : (get >>= f) s = f s s :=
  rfl

theorem bind_apply (x : Exec α) (f : α → Exec β) (s : State) :
    (x >>= f) s = match x s with
      | .ok a t => f a t
      | .error e t => .error e t := by
  cases h : x s with
  | ok a t =>
      change EStateM.bind x f s = _
      simp only [EStateM.bind, h]
  | error e t =>
      change EStateM.bind x f s = _
      simp only [EStateM.bind, h]

theorem bind_eq_ok {x : Exec α} {f : α → Exec β} {s : State} {b : β} {t : State} :
    (x >>= f) s = .ok b t ↔ ∃ a u, x s = .ok a u ∧ f a u = .ok b t := by
  change EStateM.bind x f s = _ ↔ _
  unfold EStateM.bind
  cases x s with
  | ok a u => simp [and_assoc]
  | error e u => simp

theorem bind_eq_error {x : Exec α} {f : α → Exec β} {s : State} {h : Halt} {t : State} :
    (x >>= f) s = .error h t ↔
      x s = .error h t ∨ ∃ a u, x s = .ok a u ∧ f a u = .error h t := by
  change EStateM.bind x f s = _ ↔ _
  unfold EStateM.bind
  cases x s with
  | ok a u => simp [and_assoc]
  | error e u => simp

theorem bind_of_ok {x : Exec α} {f : α → Exec β} {s : State} {a : α} {t : State}
    (h : x s = .ok a t) : (x >>= f) s = f a t := by
  change EStateM.bind x f s = _
  simp [EStateM.bind, h]

theorem bind_of_error {x : Exec α} {f : α → Exec β} {s : State} {e : Halt} {t : State}
    (h : x s = .error e t) : (x >>= f) s = .error e t := by
  change EStateM.bind x f s = _
  simp [EStateM.bind, h]

theorem ok_of_run' {x : Exec α} {s : State} {a : α} (h : x.run' s = some a) :
    ∃ t, x s = .ok a t := by
  unfold EStateM.run' at h
  split at h
  next b t heq =>
    injection h with hb
    exact ⟨t, hb ▸ heq⟩
  next => cases h

/-! ## Local actions -/

def Result.under (c : Control) : EStateM.Result Halt State α → EStateM.Result Halt State α
  | .ok a s => .ok a (s.withControl c)
  | .error e s => .error e (s.withControl c)

def Result.state : EStateM.Result Halt State α → State
  | .ok _ s => s
  | .error _ s => s

/--
An action is local if it neither reads nor changes the control, keeps all
variables where they are and does not shrink memory.
-/
structure Local (x : Exec α) : Prop where
  under : ∀ s c, x (s.withControl c) = Result.under c (x s)
  grows : ∀ s : State, s.Grows (Result.state (x s))

theorem Local.control_eq {x : Exec α} (hx : Local x) (s : State) :
    (Result.state (x s)).control = s.control := by
  have h := hx.under s s.control
  rw [State.withControl_control] at h
  cases hr : x s with
  | ok a t =>
      rw [hr] at h
      injection h with _ ht
      exact (congrArg State.control ht : t.control = _)
  | error e t =>
      rw [hr] at h
      injection h with _ ht
      exact (congrArg State.control ht : t.control = _)

theorem Local.grows_ok {x : Exec α} (hx : Local x) {s t : State} {a : α} (h : x s = .ok a t) :
    s.Grows t := by
  have hg := hx.grows s
  rwa [h] at hg

theorem Local.pure (a : α) : Local (pure a : Exec α) :=
  ⟨fun _ _ => rfl, fun s => .refl s⟩

theorem Local.throw (h : Halt) : Local (throw h : Exec α) :=
  ⟨fun _ _ => rfl, fun s => .refl s⟩

theorem Local.fail (f : Fault) : Local (fail f : Exec α) := .throw _

theorem Local.lift (r : Except Fault α) : Local (lift r : Exec α) := by
  cases r with
  | ok a => exact .pure a
  | error f => exact .fail f

theorem Local.bind {x : Exec α} {f : α → Exec β} (hx : Local x) (hf : ∀ a, Local (f a)) :
    Local (x >>= f) := by
  constructor
  · intro s c
    have h := hx.under s c
    cases hr : x s with
    | ok a t =>
        rw [hr] at h
        rw [bind_of_ok hr, bind_of_ok h, (hf a).under]
    | error e t =>
        rw [hr] at h
        rw [bind_of_error hr, bind_of_error h]
        rfl
  · intro s
    have h := hx.grows s
    cases hr : x s with
    | ok a t =>
        rw [hr] at h
        rw [bind_of_ok hr]
        exact h.trans ((hf a).grows t)
    | error e t =>
        rw [hr] at h
        rw [bind_of_error hr]
        exact h

theorem Local.get_bind {f : State → Exec β} (hf : ∀ s, Local (f s))
    (hcongr : ∀ s c, f (s.withControl c) = f s) : Local (get >>= f) := by
  constructor
  · intro s c
    change f (s.withControl c) (s.withControl c) = Result.under c (f s s)
    rw [hcongr, (hf s).under]
  · intro s
    exact (hf s).grows s

theorem Local.modify {g : State → State} (hc : ∀ s c, g (s.withControl c) = (g s).withControl c)
    (hg : ∀ s : State, s.Grows (g s)) : Local (modify g : Exec Unit) := by
  constructor
  · intro s c
    change EStateM.Result.ok () (g (s.withControl c)) = _
    rw [hc]
    rfl
  · exact hg

end Exec

end BrownLang
