import BrownLang.Proofs.Execution.Visit
import BrownLang.Proofs.Loading.LabelTable

/-!
# Where a program can be

Jumps, calls and returns may cross function bodies in any way, and still the
program never leaves its code but at its end, and every call comes back to the
instruction that made it.
-/

namespace BrownLang

namespace Machine

variable {m : Machine}

theorem nextIp?_le_size (hloaded : m.program.Loaded) {i : Instr} {vs : List Nat} {ip next : Nat}
    (hip : ip < m.program.code.size) (h : m.nextIp? i vs ip = some next) :
    next ≤ m.program.code.size := by
  unfold nextIp? at h
  split at h
  case h_3 =>
    cases h
    exact hip
  all_goals
    obtain ⟨k, hk, rfl⟩ := Option.map_eq_some_iff.mp h
    exact Program.lt_of_lookup_labels hloaded hk

theorem ip_lt_of_going {k : Loop} {s : State} {line : CodeLine} (h : m.Going k s line) :
    s.ip < m.program.code.size :=
  (Array.getElem?_eq_some_iff.mp h.1).1

theorem ip_le_of_step (hloaded : m.program.Loaded) {k : Loop} {n : Nat} {s t : State}
    {line : CodeLine} (hgo : m.Going k s line) (h : m.step (m.caller n) s = .ok () t) :
    t.ip ≤ m.program.code.size := by
  obtain ⟨-, -, vs, u, -, hnext⟩ := m.step_ok (m.caller_returns n) hgo.1 h
  exact nextIp?_le_size hloaded (ip_lt_of_going hgo) hnext

theorem ip_lt_of_enters {f : String} {args : List Nat} {s u : State} (h : m.Enters f args s u) :
    u.ip < m.program.code.size := by
  obtain ⟨entry, params, preserve, saved, t, hres, -, rfl⟩ := h
  obtain ⟨g, hg⟩ := hres.head
  obtain ⟨line, hline, -⟩ := Option.map_eq_some_iff.mp hg
  exact (Array.getElem?_eq_some_iff.mp hline).1

theorem ip_le_of_visits (hloaded : m.program.Loaded) {k k' : Loop} {s t : State}
    (h : m.Visits k s k' t) (hs : s.ip ≤ m.program.code.size) : t.ip ≤ m.program.code.size := by
  induction h with
  | here => exact hs
  | next hgo hstep _ ih => exact ih (ip_le_of_step hloaded hgo hstep)
  | enter _ _ henter _ ih => exact ih (Nat.le_of_lt (ip_lt_of_enters henter))

theorem ip_eq_of_halts {k : Loop} {s t : State} {h : Halt} (hh : m.Halts k s h t) :
    t.ip = s.ip := by
  cases hh with
  | exhausted => rfl
  | leftCode _ => rfl
  | instruction _ _ hr => exact hr.ip_eq
  | conclusion _ _ _ hconc =>
      exact (State.evolution_returns.of_local_error (local_conclude _ _ _) hconc).ip_eq

theorem ip_le_of_reaches (hloaded : m.program.Loaded) {s t : State} (h : m.Reaches s t)
    (hs : s.ip ≤ m.program.code.size) : t.ip ≤ m.program.code.size := by
  cases h with
  | visit hvisit => exact ip_le_of_visits hloaded hvisit hs
  | call hvisit _ hcall =>
      have hreturns := hcall.evolves State.evolution_returns (m.caller_returns _)
      rw [hreturns.ip_eq]
      have hvisited := ip_le_of_visits hloaded hvisit hs
      exact hvisited
  | halt hloop =>
      obtain ⟨k, u, hvisit, hhalts⟩ := m.loop_halts hloop
      rw [ip_eq_of_halts hhalts]
      exact ip_le_of_visits hloaded hvisit hs

/--
An evaluation that ends well leaves the program where it was, in the same
calls.  A step that ends well keeps the calls too, and goes on where the values
of the operands say: after the instruction, or after the label jumped to.  So
a run never gets beyond the end of the code.
-/
theorem calls_balanced (m : Machine) (hloaded : m.program.Loaded) :
    (∀ (n : Nat) (e : Expr) (s : State) (v : Nat) (t : State),
      e.eval (m.caller n) s = .ok v t → t.ip = s.ip ∧ t.calls = s.calls) ∧
    (∀ (n : Nat) (s : State) (line : CodeLine) (t : State),
      m.program.code[s.ip]? = some line → m.step (m.caller n) s = .ok () t →
      t.calls = s.calls ∧ ∃ vs u,
        Expr.evalAll (m.caller n) line.instr.operands (s.recorded m.options.verbose line) =
          .ok vs u ∧
        m.nextIp? line.instr vs s.ip = some t.ip) ∧
    (∀ canvas generator t, m.Reaches (m.start canvas generator) t →
      t.ip ≤ m.program.code.size) ∧
    (∀ canvas generator fuel,
      (m.run fuel (m.start canvas generator)).2.ip ≤ m.program.code.size) := by
  have reached (canvas generator t) (h : m.Reaches (m.start canvas generator) t) :
      t.ip ≤ m.program.code.size :=
    ip_le_of_reaches hloaded h (Nat.zero_le _)
  refine ⟨?_, ?_, reached, ?_⟩
  · intro n e s v t h
    have hreturns := m.eval_returns h
    exact ⟨hreturns.ip_eq, hreturns.calls_eq⟩
  · intro n s line t hline h
    obtain ⟨hadv, -, vs, u, hvs, hnext⟩ := m.step_ok (m.caller_returns n) hline h
    exact ⟨hadv.calls_eq, vs, u, hvs, hnext⟩
  · intro canvas generator fuel
    obtain ⟨t, hreach, heq⟩ := m.reaches_run fuel (m.start canvas generator)
    rw [heq]
    exact reached canvas generator t hreach

def crossing : Machine where
  program := {
    code := (Code.ofBlock [
      .function "f" [] false [.goto "g" none] none,
      .function "g" [] false [] none,
      .eval (.call "f" []) none]).toArray
    data := []
    labels := [("f", 0), ("g", 3)]
    dataLabels := [] }
  options := {}

theorem crossing_ip_le : crossing.program.Loaded ∧ ∀ canvas generator fuel,
    (crossing.run fuel (crossing.start canvas generator)).2.ip ≤ 6 := by
  have hloaded : crossing.program.Loaded := by rfl
  exact ⟨hloaded, (calls_balanced crossing hloaded).2.2.2⟩

end Machine

end BrownLang
