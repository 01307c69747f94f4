import BrownLang.Proofs.Execution.Fuel

/-!
# Paths

What a loop of the machine passes at its own level: calls that are made on the
way are parts of single steps.  Without a jump the next instruction follows,
and a jump comes to rest behind a label, so an instruction that stands behind
no label is reached from the one before it only.
-/

namespace BrownLang

namespace Machine

variable (m : Machine)

/-- The loop `k` comes from `s` to `t` by one step in each of the states `us`, in order. -/
inductive Path (k : Loop) : State → List State → State → Prop
  | nil {s} : Path k s [] s
  | cons {s line n u us t} : m.Going k s line → m.step (m.caller n) s = .ok () u →
      Path k u us t → Path k s (s :: us) t

variable {m} {k : Loop} {s t u : State} {us vs : List State}

theorem Path.append (h : m.Path k s us t) (h' : m.Path k t vs u) : m.Path k s (us ++ vs) u := by
  induction h with
  | nil => exact h'
  | cons hgo hstep _ ih => exact .cons hgo hstep (ih h')

theorem Path.of_execute {line : CodeLine} {n : Nat} (hgo : m.Going k s line)
    (h : m.execute (m.caller n) line.instr (s.recorded m.options.verbose line) = .ok () t) :
    m.Path k s [s] { t with ip := t.ip + 1 } := by
  have hstep : m.step (m.caller n) s = .ok () { t with ip := t.ip + 1 } := by
    rw [m.step_eq hgo.1, Exec.bind_of_ok h]
    rfl
  exact .cons hgo hstep .nil

theorem Path.loop_eq (h : m.Path k s us t) :
    ∃ K, ∀ N, K ≤ N → m.loop k (us.length + N) s = m.loop k N t := by
  induction h with
  | nil => exact ⟨0, fun N _ => by simp⟩
  | @cons s line n u us t hgo hstep _ ih =>
      obtain ⟨K, hK⟩ := ih
      refine ⟨max n K, fun N hN => ?_⟩
      have hle : n ≤ us.length + N := by omega
      have hstep' : m.step (m.caller (us.length + N)) s = .ok () u :=
        Coupling.completing_ok (m.covers_completing.step (m.caller_completing hle)) hstep
      rw [List.length_cons, Nat.add_right_comm, m.loop_succ_of_going hgo,
        Exec.bind_of_ok hstep', hK N (by omega)]

/-! ## Where a step leads -/

theorem step_next_or_label {n : Nat} {line : CodeLine}
    (hline : m.program.code[s.ip]? = some line) (h : m.step (m.caller n) s = .ok () t) :
    t.ip = s.ip + 1 ∨ ∃ l i, m.program.labels.lookup l = some i ∧ t.ip = i + 1 := by
  obtain ⟨-, -, vs, u, -, hnext⟩ := m.step_ok (m.caller_returns n) hline h
  have hjump {l : String} (hl : (m.program.labels.lookup l).map (· + 1) = some t.ip) :
      ∃ l i, m.program.labels.lookup l = some i ∧ t.ip = i + 1 := by
    obtain ⟨i, hi, ht⟩ := Option.map_eq_some_iff.mp hl
    exact ⟨l, i, hi, ht.symm⟩
  unfold nextIp? at hnext
  split at hnext
  · exact .inr (hjump hnext)
  · exact .inr (hjump hnext)
  · exact .inl (Option.some.inj hnext).symm

/--
On a path that does not pass the instruction at `p`, which is no label, the one
behind it is next at the start at most.
-/
theorem Path.filter_behind (hloaded : m.program.Loaded) {p : Nat} {line : CodeLine}
    (hp : m.program.code[p]? = some line) (hlabel : line.instr.defines? = none)
    (h : m.Path k s us t) (hpass : ∀ u ∈ us, u.ip ≠ p) :
    (us ++ [t]).filter (fun u => u.ip = p + 1) = [s].filter fun u => u.ip = p + 1 := by
  induction h with
  | nil => rfl
  | @cons s line' n u us t hgo hstep hrest ih =>
      have hu : u.ip ≠ p + 1 := by
        rcases step_next_or_label hgo.1 hstep with hnext | ⟨l, i, hi, hnext⟩
        · have hs := hpass s (List.mem_cons_self ..)
          omega
        · obtain ⟨line'', hline'', hdef⟩ := (Program.lookup_labels_iff hloaded l i).mp hi
          rintro hip
          obtain rfl : i = p := by omega
          rw [hp] at hline''
          cases hline''
          exact nomatch hlabel.symm.trans hdef
      have htail := ih fun w hw => hpass w (List.mem_cons_of_mem s hw)
      simp [List.filter_cons, htail, hu]

end Machine

end BrownLang
