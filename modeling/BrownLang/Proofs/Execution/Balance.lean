import BrownLang.Proofs.Execution.Call

/-!
# Calls are balanced

When an evaluation ends well the program is where it was before, in the same
calls, whatever was called on the way: a call that returns has popped the
frames that it pushed and gone back home, even if its body ended at the return
of another function.  The journal has gone on, but only with entries of frames
that did not exist before and are gone now.
-/

namespace BrownLang

namespace State

/-- If any entries are kept, the latest is of a frame in `p` and not older than `step`. -/
def LastEntry (t : State) (step : Nat) (p : Option Nat → Prop) : Prop :=
  0 < t.journal.kept.limit →
    ∃ e, t.journal.kept.latest? = some e ∧ step ≤ e.step ∧ p e.frame

def frameId? (s : State) : Option Nat := s.calls.head?.map Frame.id

def SameLog (s t : State) : Prop :=
  t.journal.next = s.journal.next ∧ t.journal.kept = s.journal.kept

/-- From `s` to `t` nothing has changed but the store, and entries of frames that came and went. -/
structure Returns (s t : State) : Prop where
  ip_eq : t.ip = s.ip
  calls_eq : t.calls = s.calls
  grows : s.Grows t
  limit_eq : t.journal.kept.limit = s.journal.kept.limit
  latest_eq : ∀ id < s.nextFrame,
    t.journal.latest.lookup id = s.journal.latest.lookup id
  news : (t.nextFrame = s.nextFrame ∧ SameLog s t) ∨
    (s.nextFrame < t.nextFrame ∧ s.journal.next < t.journal.next ∧
      t.LastEntry s.journal.next fun frame => ∃ k, s.nextFrame ≤ k ∧ frame = some k)

/-- From `s` to `t` some instructions have been executed, none if no entry has been made. -/
structure Advances (s t : State) : Prop where
  calls_eq : t.calls = s.calls
  grows : s.Grows t
  frames_le : s.nextFrame ≤ t.nextFrame
  limit_eq : t.journal.kept.limit = s.journal.kept.limit
  latest_eq : ∀ id < s.nextFrame, s.frameId? ≠ some id →
    t.journal.latest.lookup id = s.journal.latest.lookup id
  news : SameLog s t ∨
    (s.journal.next < t.journal.next ∧
      t.LastEntry s.journal.next fun frame =>
        frame = s.frameId? ∨ ∃ k, s.nextFrame ≤ k ∧ frame = some k)

theorem LastEntry.mono {t : State} {step step' : Nat} {p p' : Option Nat → Prop}
    (h : t.LastEntry step p) (hstep : step' ≤ step) (hp : ∀ f, p f → p' f) :
    t.LastEntry step' p' := by
  intro hpos
  obtain ⟨e, he, hle, hpe⟩ := h hpos
  exact ⟨e, he, Nat.le_trans hstep hle, hp _ hpe⟩

theorem LastEntry.of_sameLog {s t : State} {step : Nat} {p : Option Nat → Prop}
    (h : s.LastEntry step p) (hlog : SameLog s t) : t.LastEntry step p := by
  unfold LastEntry
  rw [hlog.2]
  exact h

theorem SameLog.trans {s t u : State} (h : SameLog s t) (k : SameLog t u) : SameLog s u :=
  ⟨k.1.trans h.1, k.2.trans h.2⟩

theorem Returns.frames_le {s t : State} (h : Returns s t) : s.nextFrame ≤ t.nextFrame := by
  rcases h.news with ⟨hn, -⟩ | ⟨hn, -, -⟩
  · omega
  · omega

theorem Returns.next_le {s t : State} (h : Returns s t) : s.journal.next ≤ t.journal.next := by
  rcases h.news with ⟨-, hlog⟩ | ⟨-, hn, -⟩
  · exact Nat.le_of_eq hlog.1.symm
  · omega

theorem evolution_returns : Evolution Returns where
  trans {s t u} h k := by
    refine ⟨k.ip_eq.trans h.ip_eq, k.calls_eq.trans h.calls_eq, h.grows.trans k.grows,
      k.limit_eq.trans h.limit_eq, ?_, ?_⟩
    · intro id hid
      rw [k.latest_eq id (Nat.lt_of_lt_of_le hid h.frames_le), h.latest_eq id hid]
    · have hnext := h.next_le
      have hframes := h.frames_le
      rcases k.news with ⟨hf, hlog⟩ | ⟨hf, hn, hlast⟩
      · rcases h.news with ⟨hf', hlog'⟩ | ⟨hf', hn', hlast'⟩
        · exact .inl ⟨hf.trans hf', hlog'.trans hlog⟩
        · exact .inr ⟨by omega, by rw [hlog.1]; exact hn', hlast'.of_sameLog hlog⟩
      · refine .inr ⟨by omega, by omega, hlast.mono hnext ?_⟩
        rintro f ⟨i, hi, rfl⟩
        exact ⟨i, by omega, rfl⟩
  of_control_eq {s t} hc hg := by
    simp only [control, Control.mk.injEq] at hc
    obtain ⟨hip, hj, hcalls, hframe, -⟩ := hc
    exact ⟨hip, hcalls, hg, by rw [hj], fun _ _ => by rw [hj],
      .inl ⟨hframe, by rw [hj], by rw [hj]⟩⟩

theorem Advances.refl (s : State) : Advances s s :=
  ⟨rfl, .refl s, Nat.le_refl _, rfl, fun _ _ _ => rfl, .inl ⟨rfl, rfl⟩⟩

theorem Advances.next_le {s t : State} (h : Advances s t) :
    s.journal.next ≤ t.journal.next := by
  rcases h.news with hlog | ⟨hn, -⟩
  · exact Nat.le_of_eq hlog.1.symm
  · omega

theorem Advances.frameId_eq {s t : State} (h : Advances s t) : t.frameId? = s.frameId? := by
  rw [frameId?, h.calls_eq, frameId?]

theorem Advances.trans {s t u : State} (h : Advances s t) (k : Advances t u) :
    Advances s u := by
  have hnext := h.next_le
  have hframes := h.frames_le
  refine ⟨k.calls_eq.trans h.calls_eq, h.grows.trans k.grows,
    Nat.le_trans hframes k.frames_le, k.limit_eq.trans h.limit_eq, ?_, ?_⟩
  · intro id hid hown
    rw [k.latest_eq id (by omega) (by rwa [h.frameId_eq]), h.latest_eq id hid hown]
  · rcases k.news with hlog | ⟨hn, hlast⟩
    · rcases h.news with hlog' | ⟨hn', hlast'⟩
      · exact .inl (hlog'.trans hlog)
      · exact .inr ⟨by rw [hlog.1]; exact hn', hlast'.of_sameLog hlog⟩
    · refine .inr ⟨by omega, hlast.mono hnext ?_⟩
      rintro f (rfl | ⟨i, hi, rfl⟩)
      · exact .inl h.frameId_eq
      · exact .inr ⟨i, by omega, rfl⟩

end State

end BrownLang
