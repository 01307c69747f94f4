import BrownLang.Proofs.Execution.Balance

/-!
# Steps and loops

A step makes an entry, evaluates the operands of its instruction, lets it take
effect, and goes on to the next instruction.  The top level and the bodies of
calls are loops of steps; they differ in what ends them.
-/

namespace BrownLang

namespace State

def entry (s : State) (verbose : Bool) (line : CodeLine) : Entry where
  step := s.journal.next
  frame := s.frameId?
  ip := s.ip
  rule := line.instr.rule
  loc := line.loc
  snapshot := if verbose then some s.snapshot else none

def recorded (s : State) (verbose : Bool) (line : CodeLine) : State :=
  { s with journal := s.journal.add (s.entry verbose line) }

theorem latest?_push {α : Type} {w : Window α} (a : α) (h : 0 < w.limit) :
    (w.push a).latest? = some a := by
  obtain ⟨n, hn⟩ := Nat.exists_eq_succ_of_ne_zero (Nat.pos_iff_ne_zero.mp h)
  simp [Window.latest?, Window.latestFirst_push, hn]

theorem lastEntry_recorded (s : State) (verbose : Bool) (line : CodeLine) :
    (s.recorded verbose line).LastEntry s.journal.next (· = s.frameId?) := by
  intro hpos
  have hlimit : 0 < s.journal.kept.limit := by
    simpa [recorded, Journal.add] using hpos
  exact ⟨s.entry verbose line, latest?_push _ hlimit, Nat.le_refl _, rfl⟩

theorem advances_recorded (s : State) (verbose : Bool) (line : CodeLine) :
    Advances s (s.recorded verbose line) where
  calls_eq := rfl
  grows := .of_eq rfl rfl
  frames_le := Nat.le_refl _
  limit_eq := Window.limit_push _ _
  latest_eq id _ hown := by
    simp only [recorded, Journal.add, entry]
    cases hid : s.frameId? with
    | none => rfl
    | some own =>
        have : id ≠ own := fun heq => hown (by rw [hid, heq])
        simp [FrameEntries.lookup_put, this]
  news := .inr ⟨Nat.lt_succ_self _, (s.lastEntry_recorded verbose line).mono (Nat.le_refl _)
    fun _ h => .inl h⟩

theorem Returns.advances {s t : State} (h : Returns s t) : Advances s t where
  calls_eq := h.calls_eq
  grows := h.grows
  frames_le := h.frames_le
  limit_eq := h.limit_eq
  latest_eq id hid _ := h.latest_eq id hid
  news := by
    rcases h.news with ⟨-, hlog⟩ | ⟨-, hn, hlast⟩
    · exact .inl hlog
    · exact .inr ⟨hn, hlast.mono (Nat.le_refl _) fun _ h => .inr h⟩

theorem Advances.of_ip {s t : State} (h : Advances s t) (ip : Nat) :
    Advances s { t with ip := ip } :=
  ⟨h.calls_eq, h.grows.trans (.of_eq rfl rfl), h.frames_le, h.limit_eq, h.latest_eq, h.news⟩

end State

namespace Machine

variable (m : Machine)

/-- Where the instruction at `ip` hands over to, if its operands have the values `vs`. -/
def nextIp? (i : Instr) (vs : List Nat) (ip : Nat) : Option Nat :=
  match i, vs with
  | .goto l, _ => (m.program.labels.lookup l).map (· + 1)
  | .jumpFalse _ l, [0] => (m.program.labels.lookup l).map (· + 1)
  | _, _ => some (ip + 1)

theorem jump_eq_ok {l : String} {s t : State} :
    m.jump l s = .ok () t ↔ ∃ k, m.program.labels.lookup l = some k ∧ t = { s with ip := k } := by
  unfold jump
  cases hl : m.program.labels.lookup l with
  | none =>
      constructor
      · intro h
        exact nomatch h
      · rintro ⟨k, hk, -⟩
        exact nomatch hk
  | some k =>
      constructor
      · intro h
        injection h with _ ht
        exact ⟨k, rfl, ht.symm⟩
      · rintro ⟨k', hk, rfl⟩
        cases hk
        rfl

theorem jump_eq_error {l : String} {s t : State} {h : Halt} (hj : m.jump l s = .error h t) :
    t = s := by
  unfold jump at hj
  cases hl : m.program.labels.lookup l with
  | none => rw [hl] at hj; injection hj with _ ht; exact ht.symm
  | some k => rw [hl] at hj; exact nomatch hj

theorem effect_local_or_jump (i : Instr) (vs : List Nat) :
    (Exec.Local (m.effect i vs) ∧ ∀ ip, m.nextIp? i vs ip = some (ip + 1)) ∨
      ∃ l, m.effect i vs = m.jump l ∧
        ∀ ip, m.nextIp? i vs ip = (m.program.labels.lookup l).map (· + 1) := by
  unfold effect
  split
  case h_1 => exact .inl ⟨Exec.local_writeVar _ _, fun _ => rfl⟩
  case h_2 => exact .inl ⟨Exec.local_writeWord _ _, fun _ => rfl⟩
  case h_3 => exact .inl ⟨Exec.local_writeByte _ _, fun _ => rfl⟩
  case h_4 l => exact .inr ⟨l, rfl, fun _ => rfl⟩
  case h_5 c l v =>
    by_cases hv : v = 0
    · subst hv
      exact .inr ⟨l, rfl, fun _ => rfl⟩
    · rw [if_neg hv]
      refine .inl ⟨.pure (), fun ip => ?_⟩
      obtain ⟨n, rfl⟩ := Nat.exists_eq_succ_of_ne_zero hv
      rfl
  case h_6 hgoto _ _ _ hjump =>
    refine .inl ⟨.pure (), fun ip => ?_⟩
    unfold nextIp?
    split
    case h_1 => exact absurd rfl (hgoto _)
    case h_2 => exact (hjump _ _ 0 rfl rfl).elim
    case h_3 => rfl

theorem effect_ok {i : Instr} {vs : List Nat} {s t : State} (h : m.effect i vs s = .ok () t) :
    (State.Returns s { t with ip := s.ip }) ∧ m.nextIp? i vs s.ip = some (t.ip + 1) := by
  rcases m.effect_local_or_jump i vs with ⟨hlocal, hnext⟩ | ⟨l, heff, hnext⟩
  · have hr := State.evolution_returns.of_local_ok hlocal h
    rw [hnext, hr.ip_eq]
    refine ⟨?_, rfl⟩
    rw [← hr.ip_eq]
    exact hr
  · rw [heff] at h
    obtain ⟨k, hk, rfl⟩ := m.jump_eq_ok.mp h
    exact ⟨State.evolution_returns.refl s, by rw [hnext, hk]; rfl⟩

theorem effect_error {i : Instr} {vs : List Nat} {s t : State} {h : Halt}
    (he : m.effect i vs s = .error h t) : State.Returns s t := by
  rcases m.effect_local_or_jump i vs with ⟨hlocal, -⟩ | ⟨l, heff, -⟩
  · exact State.evolution_returns.of_local_error hlocal he
  · rw [heff] at he
    rw [m.jump_eq_error he]
    exact State.evolution_returns.refl s

theorem step_eq {call : Caller} {s : State} {line : CodeLine}
    (hline : m.program.code[s.ip]? = some line) :
    m.step call s =
      (do
        m.execute call line.instr
        modify fun t => { t with ip := t.ip + 1 } : Exec Unit)
      (s.recorded m.options.verbose line) := by
  rw [step, Exec.get_bind, hline]
  rfl

theorem step_ok {call : Caller} {s t : State} {line : CodeLine}
    (hcall : ∀ f args s v t, call f args s = .ok v t → State.Returns s t)
    (hline : m.program.code[s.ip]? = some line) (h : m.step call s = .ok () t) :
    State.Advances s t ∧ s.journal.next < t.journal.next ∧
      ∃ vs u, Expr.evalAll call line.instr.operands (s.recorded m.options.verbose line) =
        .ok vs u ∧ m.nextIp? line.instr vs s.ip = some t.ip := by
  rw [m.step_eq hline, execute_eq_effect] at h
  obtain ⟨_, w, hexec, hip⟩ := Exec.bind_eq_ok.mp h
  obtain ⟨vs, u, hvs, heff⟩ := Exec.bind_eq_ok.mp hexec
  injection hip with _ ht
  subst ht
  have hrec := s.advances_recorded m.options.verbose line
  have hu : State.Returns (s.recorded m.options.verbose line) u :=
    Expr.evalAll_evolves State.evolution_returns hcall hvs
  obtain ⟨hw, hnext⟩ := m.effect_ok heff
  have hall := (hrec.trans hu.advances).trans (hw.advances.of_ip (w.ip + 1))
  refine ⟨hall, ?_, vs, u, hvs, ?_⟩
  · exact Nat.lt_of_lt_of_le (Nat.lt_succ_self _) (Nat.le_trans hu.next_le hw.next_le)
  · rw [hu.ip_eq] at hnext
    exact hnext

/-! ## Loops of steps -/

end Machine

/-- The loops that execute instructions: that of the top level, and those of bodies of calls. -/
inductive Loop where
  | top
  | body
  deriving DecidableEq

/-- The instructions that a loop executes; any other one ends it. -/
def Loop.Passes : Loop → Instr → Prop
  | top, _ => True
  | body, i => i ≠ .funReturn

namespace Machine

variable (m : Machine)

def loop : Loop → Nat → Exec Unit
  | .top => m.untilEnd
  | .body => m.untilReturn

@[simp] theorem loop_zero (k : Loop) : m.loop k 0 = throw .unfinished := by
  cases k <;> rfl

def Going (k : Loop) (s : State) (line : CodeLine) : Prop :=
  m.program.code[s.ip]? = some line ∧ k.Passes line.instr

theorem loop_succ_of_going {k : Loop} {n : Nat} {s : State} {line : CodeLine}
    (h : m.Going k s line) :
    m.loop k (n + 1) s = (m.step (m.caller n) >>= fun _ => m.loop k n) s := by
  obtain ⟨hline, hpass⟩ := h
  cases k with
  | top =>
      have hlt : s.ip < m.program.code.size := (Array.getElem?_eq_some_iff.mp hline).1
      change (if s.ip < m.program.code.size then _ else _ : Exec Unit) s = _
      rw [if_pos hlt]
      rfl
  | body =>
      have hinstr : (m.program.code[s.ip]?).map CodeLine.instr = some line.instr := by
        rw [hline]
        rfl
      rw [loop, untilReturn, Exec.get_bind, hinstr]
      cases hi : line.instr with
      | funReturn => exact absurd hi hpass
      | _ => rfl

theorem loop_succ_of_not_going {k : Loop} {n : Nat} {s : State}
    (h : ∀ line, ¬ m.Going k s line) :
    (m.loop k (n + 1) s = .ok () s ∧ (k = .body → m.instrAt s.ip = some .funReturn)) ∨
      (k = .body ∧ m.program.code.size ≤ s.ip ∧
        m.loop k (n + 1) s = .error (.exit 0) s) := by
  cases k with
  | top =>
      have hge : ¬ s.ip < m.program.code.size := fun hlt =>
        h _ ⟨Array.getElem?_eq_getElem hlt, trivial⟩
      left
      constructor
      · change (if s.ip < m.program.code.size then _ else _ : Exec Unit) s = _
        rw [if_neg hge]
        rfl
      · exact fun hk => nomatch hk
  | body =>
      rw [loop, untilReturn, Exec.get_bind]
      cases hline : m.program.code[s.ip]? with
      | none =>
          right
          refine ⟨rfl, Array.getElem?_eq_none_iff.mp hline, ?_⟩
          rw [Option.map_none]
          rfl
      | some line =>
          have hreturn : line.instr = .funReturn :=
            Decidable.byContradiction fun hne => h line ⟨hline, hne⟩
          have hinstr : m.instrAt s.ip = some .funReturn := by
            rw [instrAt, hline, ← hreturn]
            rfl
          left
          refine ⟨?_, fun _ => hinstr⟩
          rw [Option.map_some, hreturn]
          rfl

end Machine

/-! ## Calls and loops that end well -/

theorem State.returns_of_body {s s₁ w w₁ : State} {f : String} {loc : Option Location}
    {entry : Nat} (hc₁ : s₁.control = s.control) (hg₁ : s.Grows s₁)
    (hadv : Advances (s₁.entered f loc entry) w)
    (hstrict : (s₁.entered f loc entry).journal.next < w.journal.next)
    (hc₂ : w₁.control = w.control) (hg₂ : w.Grows w₁) : Returns s (w₁.returned s.ip) := by
  simp only [control, Control.mk.injEq] at hc₁ hc₂
  obtain ⟨-, hj₁, hcalls₁, hframe₁, -⟩ := hc₁
  obtain ⟨-, hj₂, hcalls₂, hframe₂, -⟩ := hc₂
  have hcalls : w₁.calls = ⟨f, s.nextFrame, loc⟩ :: s.calls := by
    rw [hcalls₂, hadv.calls_eq, entered, hcalls₁, hframe₁]
  have hret : w₁.returned s.ip =
      { w₁ with
        calls := s.calls
        journal := w.journal.dropFrame s.nextFrame
        ip := s.ip } := by
    rw [returned, hcalls, hj₂]
  have hown : (s₁.entered f loc entry).frameId? = some s.nextFrame := by
    rw [frameId?, entered, ← hframe₁]
    rfl
  have hfresh : (s₁.entered f loc entry).nextFrame = s.nextFrame + 1 := by
    rw [entered, hframe₁]
  have hjournal : (s₁.entered f loc entry).journal = s.journal := hj₁
  have hframes := hadv.frames_le
  rw [hfresh] at hframes
  rw [hjournal] at hstrict
  rw [hret]
  refine ⟨rfl, rfl, ?_, ?_, ?_, .inr ⟨?_, hstrict, ?_⟩⟩
  · have hin : s₁.Grows (s₁.entered f loc entry) := .of_eq rfl rfl
    exact (hg₁.trans hin).trans ((hadv.grows.trans hg₂).trans (.of_eq rfl rfl))
  · exact hadv.limit_eq.trans (by rw [hjournal])
  · intro id hid
    have hne : id ≠ s.nextFrame := Nat.ne_of_lt hid
    change (w.journal.latest.drop s.nextFrame).lookup id = _
    rw [FrameEntries.lookup_drop_of_ne hne, hadv.latest_eq id (by omega) (by
      rw [hown]
      exact fun h => hne (Option.some.inj h).symm), hjournal]
  · change s.nextFrame < w₁.nextFrame
    omega
  · rcases hadv.news with hlog | ⟨-, hlast⟩
    · exact absurd hlog.1 (by rw [hjournal]; omega)
    · rw [hjournal] at hlast
      intro hpos
      obtain ⟨e, he, hle, hp⟩ := hlast hpos
      refine ⟨e, he, hle, ?_⟩
      rcases hp with hp | ⟨k, hk, hp⟩
      · exact ⟨s.nextFrame, Nat.le_refl _, hp.trans hown⟩
      · exact ⟨k, by omega, hp⟩

namespace Machine

variable (m : Machine)

def Executes (body : Exec Unit) : Prop :=
  ∀ s t, body s = .ok () t → State.Advances s t ∧ (s = t ∨ s.journal.next < t.journal.next) ∧
    m.instrAt t.ip = some .funReturn

theorem enter_ok {body : Exec Unit} {f : String} {entry : Nat} {params : List String}
    {preserve : Bool} {args : List Nat} {s t : State} {v : Nat}
    (h : m.enter body f entry params preserve args s = .ok v t) :
    ∃ saved s₁ w w₁,
      prepare params preserve args s = .ok saved s₁ ∧
      body (s₁.entered f (m.locAt s.ip) entry) = .ok () w ∧
      conclude params preserve saved w = .ok v w₁ ∧
      t = w₁.returned s.ip := by
  rw [enter_eq] at h
  obtain ⟨saved, s₁, hprep, h⟩ := Exec.bind_eq_ok.mp h
  obtain ⟨_, u, henter, h⟩ := Exec.bind_eq_ok.mp h
  obtain ⟨_, w, hbody, h⟩ := Exec.bind_eq_ok.mp h
  obtain ⟨r, w₁, hconc, h⟩ := Exec.bind_eq_ok.mp h
  obtain ⟨_, t', hret, h⟩ := Exec.bind_eq_ok.mp h
  injection henter with _ hu
  injection hret with _ ht'
  injection h with hv ht
  subst hu ht' ht hv
  exact ⟨saved, s₁, w, w₁, hprep, hbody, hconc, rfl⟩

theorem call_returns {body : Exec Unit} (hbody : m.Executes body) (f : String) (args : List Nat)
    (s : State) (v : Nat) (t : State) (h : m.call body f args s = .ok v t) :
    State.Returns s t := by
  rcases m.call_local_or_resolves f args with ⟨x, hx, heq⟩ | ⟨entry, params, preserve, hres⟩
  · rw [heq] at h
    exact State.evolution_returns.of_local_ok hx h
  rw [m.call_of_resolves hres] at h
  obtain ⟨saved, s₁, w, w₁, hprep, hrun, hconc, rfl⟩ := m.enter_ok h
  obtain ⟨g, hg⟩ := hres.head
  obtain ⟨hadv, hnews, hend⟩ := hbody _ _ hrun
  -- The body begins at the head of a function, so it cannot be at its return yet.
  have hstrict : (s₁.entered f (m.locAt s.ip) entry).journal.next < w.journal.next := by
    rcases hnews with rfl | hlt
    · exact nomatch hg.symm.trans hend
    · exact hlt
  have hc₁ := (local_prepare params preserve args).control_eq s
  have hc₂ := (local_conclude params preserve saved).control_eq w
  have hg₁ := (local_prepare params preserve args).grows s
  have hg₂ := (local_conclude params preserve saved).grows w
  rw [hprep] at hc₁ hg₁
  rw [hconc] at hc₂ hg₂
  exact State.returns_of_body hc₁ hg₁ hadv hstrict hc₂ hg₂

theorem executes_untilReturn (n : Nat) : m.Executes (m.untilReturn n) := by
  induction n with
  | zero =>
      intro s t h
      exact nomatch h
  | succ n ih =>
      intro s t h
      change m.loop .body (n + 1) s = _ at h
      by_cases hgo : ∃ line, m.Going .body s line
      · obtain ⟨line, hgo⟩ := hgo
        rw [m.loop_succ_of_going hgo] at h
        obtain ⟨_, u, hstep, hrest⟩ := Exec.bind_eq_ok.mp h
        obtain ⟨hadv, hlt, -⟩ := m.step_ok (m.call_returns ih) hgo.1 hstep
        obtain ⟨hadv', -, hend⟩ := ih u t hrest
        exact ⟨hadv.trans hadv', .inr (Nat.lt_of_lt_of_le hlt hadv'.next_le), hend⟩
      · rcases m.loop_succ_of_not_going (n := n) (fun line hl => hgo ⟨line, hl⟩) with
          ⟨hok, hreturn⟩ | ⟨-, -, herror⟩
        · rw [hok] at h
          injection h with _ ht
          subst ht
          exact ⟨.refl s, .inl rfl, hreturn rfl⟩
        · rw [herror] at h
          exact nomatch h

theorem caller_returns (n : Nat) (f : String) (args : List Nat) (s : State) (v : Nat) (t : State)
    (h : m.caller n f args s = .ok v t) : State.Returns s t :=
  m.call_returns (m.executes_untilReturn n) f args s v t h

theorem eval_returns {n : Nat} {e : Expr} {s t : State} {v : Nat}
    (h : e.eval (m.caller n) s = .ok v t) : State.Returns s t :=
  Expr.eval_evolves State.evolution_returns (m.caller_returns n) h

end Machine

end BrownLang
