import BrownLang.Proofs.Execution.Coupling
import BrownLang.Proofs.Execution.Visit

/-!
# How many steps are allowed

A run that ends within the steps it is allowed does not come to know how many
there were: with more of them it goes on in the same way and ends in the same
state.
-/

namespace BrownLang

/-- The second action does what the first one does, unless the steps do not suffice for that. -/
def Coupling.completing : Coupling where
  Rel x y := ∀ s, (∃ t, x s = .error .unfinished t) ∨ y s = x s
  pure _ _ := .inr rfl
  bind := by
    intro α β x y f g hxy hfg s
    rcases hxy s with ⟨t, hx⟩ | hy
    · exact .inl ⟨t, Exec.bind_of_error hx⟩
    · cases hx : x s with
      | error h t =>
          rw [hx] at hy
          rw [Exec.bind_of_error hx, Exec.bind_of_error hy]
          exact .inr rfl
      | ok a t =>
          rw [hx] at hy
          rw [Exec.bind_of_ok hx, Exec.bind_of_ok hy]
          exact hfg a t

theorem Coupling.completing_ok {α : Type} {x y : Exec α} (h : completing.Rel x y) {s t : State}
    {a : α} (hx : x s = .ok a t) : y s = .ok a t := by
  rcases h s with ⟨u, hout⟩ | heq
  · exact nomatch hx.symm.trans hout
  · rw [heq, hx]

namespace Machine

open Coupling

variable (m : Machine)

theorem covers_completing : completing.Covers m.program m.options m.options :=
  .of_refl (fun _ _ => .inr rfl) m.program m.options

theorem untilReturn_completing {n n' : Nat} (hle : n ≤ n') :
    completing.Rel (m.untilReturn n) (m.untilReturn n') := by
  have h := m.covers_completing
  induction n generalizing n' with
  | zero => exact fun s => .inl ⟨s, rfl⟩
  | succ n ih =>
      obtain ⟨n', rfl⟩ := Nat.exists_eq_add_one_of_ne_zero (Nat.ne_zero_of_lt hle)
      have hrest := ih (Nat.le_of_succ_le_succ hle)
      rw [untilReturn_succ, untilReturn_succ]
      refine completing.bind h.here fun i => ?_
      split
      · exact h.exit
      · exact completing.pure ()
      · exact completing.bind (h.step (h.call hrest)) fun _ => hrest

theorem caller_completing {n n' : Nat} (hle : n ≤ n') (f : String) (args : List Nat) :
    completing.Rel (m.caller n f args) (m.caller n' f args) :=
  m.covers_completing.call (m.untilReturn_completing hle) f args

theorem untilEnd_completing {n n' : Nat} (hle : n ≤ n') :
    completing.Rel (m.untilEnd n) (m.untilEnd n') := by
  have h := m.covers_completing
  induction n generalizing n' with
  | zero => exact fun s => .inl ⟨s, rfl⟩
  | succ n ih =>
      obtain ⟨n', rfl⟩ := Nat.exists_eq_add_one_of_ne_zero (Nat.ne_zero_of_lt hle)
      have hrest := Nat.le_of_succ_le_succ hle
      rw [untilEnd_succ, untilEnd_succ]
      refine completing.bind h.here fun i => ?_
      split
      · exact completing.bind (h.step (m.caller_completing hrest)) fun _ => ih hrest
      · exact completing.pure ()

theorem loop_completing (k : Loop) {n n' : Nat} (hle : n ≤ n') :
    completing.Rel (m.loop k n) (m.loop k n') := by
  cases k with
  | top => exact m.untilEnd_completing hle
  | body => exact m.untilReturn_completing hle

theorem loop_fault_of_le {k : Loop} {n n' : Nat} (hle : n ≤ n') {s t : State} {f : Fault}
    (h : m.loop k n s = .error (.fault f) t) : m.loop k n' s = .error (.fault f) t := by
  rcases m.loop_completing k hle s with ⟨u, hout⟩ | heq
  · exact nomatch h.symm.trans hout
  · rw [heq, h]

theorem run_of_le {fuel fuel' : Nat} (hle : fuel ≤ fuel') {s : State}
    (hended : (m.run fuel s).1 ≠ .unfinished) : m.run fuel' s = m.run fuel s := by
  rcases m.loop_completing .top hle s.begun with ⟨t, hout⟩ | heq
  · rw [run_eq, hout] at hended
    exact absurd rfl hended
  · rw [run_eq, run_eq, heq]

end Machine

end BrownLang
