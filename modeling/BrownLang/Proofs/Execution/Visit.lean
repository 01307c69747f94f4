import BrownLang.Proofs.Execution.Loop

/-!
# The states that a run visits

A loop visits the states in which it is about to execute an instruction, and
the one that ends it; and so do, on the way, the loops of the calls that are
made while operands are evaluated.  Wherever a run halts, it does so in the
execution of an instruction that is started in a visited state, or between two
instructions, or at the return of a call.
-/

namespace BrownLang

namespace Machine

variable (m : Machine)

/-- The loop `k` in the state `s` comes to be the loop `k'` in the state `t`. -/
inductive Visits : Loop → State → Loop → State → Prop
  | here {k s} : Visits k s k s
  | next {k s line n t k' u} : m.Going k s line → m.step (m.caller n) s = .ok () t →
      Visits k t k' u → Visits k s k' u
  | enter {k s line n f args t u k' v} : m.Going k s line →
      Expr.CallsAll (m.caller n) line.instr.operands (s.recorded m.options.verbose line)
        f args t →
      m.Enters f args t u → Visits .body u k' v → Visits k s k' v

/-- The loop `k`, being at an instruction or its end in `s`, halts there in `t`. -/
inductive Halts : Loop → State → Halt → State → Prop
  | exhausted {k s} : Halts k s .unfinished s
  | leftCode {s} : m.program.code.size ≤ s.ip → Halts .body s (.exit 0) s
  | instruction {k s line n h t} : m.Going k s line →
      m.execute (m.caller n) line.instr (s.recorded m.options.verbose line) = .error h t →
      State.Returns (s.recorded m.options.verbose line) t → Halts k s h t
  | conclusion {s h t params preserve args saved r u} :
      m.instrAt s.ip = some .funReturn →
      prepare params preserve args r = .ok saved u → u.Grows s →
      conclude params preserve saved s = .error h t → Halts .body s h t

theorem visits_of_loop_ok {k : Loop} {n : Nat} {s t : State} (h : m.loop k n s = .ok () t) :
    m.Visits k s k t := by
  induction n generalizing s with
  | zero =>
      rw [loop_zero] at h
      exact nomatch h
  | succ n ih =>
      by_cases hgo : ∃ line, m.Going k s line
      · obtain ⟨line, hgo⟩ := hgo
        rw [m.loop_succ_of_going hgo] at h
        obtain ⟨_, u, hstep, hrest⟩ := Exec.bind_eq_ok.mp h
        exact .next hgo hstep (ih hrest)
      · rcases m.loop_succ_of_not_going (n := n) (fun line hl => hgo ⟨line, hl⟩) with
          ⟨hok, -⟩ | ⟨-, -, herror⟩
        · rw [hok] at h
          injection h with _ ht
          subst ht
          exact .here
        · rw [herror] at h
          exact nomatch h

theorem call_error {body : Exec Unit} {f : String} {args : List Nat} {s t : State} {h : Halt}
    (hcall : m.call body f args s = .error h t) :
    State.Returns s t ∨
      ∃ u, m.Enters f args s u ∧
        (body u = .error h t ∨
          ∃ w params preserve args' saved r v, body u = .ok () w ∧
            prepare params preserve args' r = .ok saved v ∧ v.Grows u ∧
            conclude params preserve saved w = .error h t) := by
  rcases m.call_local_or_resolves f args with ⟨x, hx, heq⟩ | ⟨entry, params, preserve, hres⟩
  · rw [heq] at hcall
    exact .inl (State.evolution_returns.of_local_error hx hcall)
  rw [m.call_of_resolves hres, enter_eq] at hcall
  rcases Exec.bind_eq_error.mp hcall with hprep | ⟨saved, s₁, hprep, hcall⟩
  · exact .inl (State.evolution_returns.of_local_error (local_prepare _ _ _) hprep)
  right
  refine ⟨_, ⟨entry, params, preserve, saved, s₁, hres, hprep, rfl⟩, ?_⟩
  rcases Exec.bind_eq_error.mp hcall with henter | ⟨_, u, henter, hcall⟩
  · exact nomatch henter
  injection henter with _ hu
  subst hu
  rcases Exec.bind_eq_error.mp hcall with hbody | ⟨_, w, hbody, hcall⟩
  · exact .inl hbody
  rcases Exec.bind_eq_error.mp hcall with hconc | ⟨r, w₁, hconc, hcall⟩
  · exact .inr ⟨w, params, preserve, args, saved, s, s₁, hbody, hprep, .of_eq rfl rfl, hconc⟩
  · rcases Exec.bind_eq_error.mp hcall with hret | ⟨_, w₂, hret, hcall⟩
    · exact nomatch hret
    · exact nomatch hcall

theorem execute_error {k : Loop} {n : Nat} {s t : State} {line : CodeLine} {h : Halt}
    (hgo : m.Going k s line)
    (hbody : ∀ u, m.loop .body n u = .error h t →
      ∃ k' v, m.Visits .body u k' v ∧ m.Halts k' v h t)
    (hexec : m.execute (m.caller n) line.instr (s.recorded m.options.verbose line) =
      .error h t) :
    ∃ k' u, m.Visits k s k' u ∧ m.Halts k' u h t := by
  have itself (hr : State.Returns (s.recorded m.options.verbose line) t) :
      ∃ k' u, m.Visits k s k' u ∧ m.Halts k' u h t :=
    ⟨k, s, .here, .instruction hgo hexec hr⟩
  have hsettles := Expr.evalAll_settles State.evolution_returns (m.caller_returns n)
    line.instr.operands (s.recorded m.options.verbose line)
  have heval := hexec
  rw [execute_eq_effect] at heval
  rcases Exec.bind_eq_error.mp heval with hops | ⟨vs, u, hops, heff⟩
  · rw [hops] at hsettles
    rcases hsettles with hr | ⟨f, args, u, hcalls, hr, hcall⟩
    · exact itself hr
    rcases m.call_error hcall with hr' | ⟨v, henter, hcall⟩
    · exact itself (State.evolution_returns.trans hr hr')
    rcases hcall with hin | ⟨w, params, preserve, args', saved, r, r', hin, hprep, hg, hconc⟩
    · obtain ⟨k', x, hvisit, hhalt⟩ := hbody v hin
      exact ⟨k', x, .enter hgo hcalls henter hvisit, hhalt⟩
    · obtain ⟨hadv, -, hend⟩ := m.executes_untilReturn n v w hin
      have hvisit : m.Visits .body v .body w := m.visits_of_loop_ok (k := .body) hin
      exact ⟨.body, w, .enter hgo hcalls henter hvisit,
        .conclusion hend hprep (hg.trans hadv.grows) hconc⟩
  · rw [hops] at hsettles
    exact itself (State.evolution_returns.trans hsettles (m.effect_error heff))

theorem loop_halts {k : Loop} {n : Nat} {s t : State} {h : Halt}
    (hloop : m.loop k n s = .error h t) : ∃ k' u, m.Visits k s k' u ∧ m.Halts k' u h t := by
  induction n generalizing k s with
  | zero =>
      rw [loop_zero] at hloop
      injection hloop with hh ht
      subst hh ht
      exact ⟨k, s, .here, .exhausted⟩
  | succ n ih =>
      by_cases hgo : ∃ line, m.Going k s line
      · obtain ⟨line, hgo⟩ := hgo
        rw [m.loop_succ_of_going hgo] at hloop
        rcases Exec.bind_eq_error.mp hloop with hstep | ⟨_, u, hstep, hrest⟩
        · rw [m.step_eq hgo.1] at hstep
          rcases Exec.bind_eq_error.mp hstep with hexec | ⟨_, u, -, hmodify⟩
          · exact m.execute_error hgo (fun v hv => ih hv) hexec
          · exact nomatch hmodify
        · obtain ⟨k', v, hvisit, hhalt⟩ := ih hrest
          exact ⟨k', v, .next hgo hstep hvisit, hhalt⟩
      · rcases m.loop_succ_of_not_going (n := n) (fun line hl => hgo ⟨line, hl⟩) with
          ⟨hok, -⟩ | ⟨rfl, hleft, herror⟩
        · rw [hok] at hloop
          exact nomatch hloop
        · rw [herror] at hloop
          injection hloop with hh ht
          subst hh ht
          exact ⟨.body, s, .here, .leftCode hleft⟩

end Machine

/-! ## Whole runs -/

def State.begun (s : State) : State := s.entered "<top-level>" none s.ip

namespace Machine

variable (m : Machine)

/--
The states that a run which begins in `s` comes through: those in which an
instruction or the end of a loop is next, those in which operands make a call,
and those in which the run halts.
-/
inductive Reaches (s : State) : State → Prop
  | visit {k t} : m.Visits .top s.begun k t → Reaches s t
  | call {k t line n f args u} : m.Visits .top s.begun k t → m.Going k t line →
      Expr.CallsAll (m.caller n) line.instr.operands (t.recorded m.options.verbose line)
        f args u → Reaches s u
  | halt {n h t} : m.loop .top n s.begun = .error h t → Reaches s t

theorem run_eq (fuel : Nat) (s : State) :
    m.run fuel s = match m.loop .top fuel s.begun with
      | .ok () t => (.exited 0, finish t 0)
      | .error (.exit code) t => (.exited code, finish t code)
      | .error (.fault f) t => (.crashed (crashAt t f), t)
      | .error .unfinished t => (.unfinished, t) := rfl

theorem reaches_run (fuel : Nat) (s : State) :
    ∃ t, m.Reaches s t ∧ (m.run fuel s).2 = { t with
      exitCode := (m.run fuel s).2.exitCode
      calls := (m.run fuel s).2.calls } := by
  rw [run_eq]
  cases h : m.loop .top fuel s.begun with
  | ok _ t => exact ⟨t, .visit (m.visits_of_loop_ok h), rfl⟩
  | error e t =>
      refine ⟨t, .halt h, ?_⟩
      cases e <;> rfl

end Machine

end BrownLang
