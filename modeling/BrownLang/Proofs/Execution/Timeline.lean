import BrownLang.Proofs.Execution.Visit

/-!
# What has happened in a run

The events of a run are the instructions that it starts and the frames that it
makes, in order.  An evaluation makes its calls one after the other, and the
events of a call that has returned are those of its body.  So every state that a
run visits has the events behind it that led there.
-/

namespace BrownLang

/-! ## The calls of an evaluation -/

structure MadeCall where
  function : String
  args : List Nat
  state : State

namespace Expr

mutual

/-- The calls that an evaluation makes, in order, up to the one that halts it if one does. -/
def made (call : Caller) : Expr → State → List MadeCall
  | .lit _, _ | .var _, _ | .addr _, _ => []
  | .word a, s | .byte a, s => a.made call s
  | .bin _ l r, s =>
    l.made call s ++
      match l.eval call s with
      | .ok _ t => r.made call t
      | .error .. => []
  | .call f es, s =>
    madeAll call es s ++
      match evalAll call es s with
      | .ok args t => [⟨f, args, t⟩]
      | .error .. => []

def madeAll (call : Caller) : List Expr → State → List MadeCall
  | [], _ => []
  | e :: es, s =>
    e.made call s ++
      match e.eval call s with
      | .ok _ t => madeAll call es t
      | .error .. => []

end

mutual

theorem Calls.mem_made {call : Caller} {e : Expr} {s : State} {f : String} {args : List Nat}
    {t : State} (h : e.Calls call s f args t) : ⟨f, args, t⟩ ∈ e.made call s := by
  match h with
  | .word h | .byte h => exact h.mem_made
  | .left h => exact List.mem_append_left _ h.mem_made
  | .right hl h =>
      rw [made, hl]
      exact List.mem_append_right _ h.mem_made
  | .within h => exact List.mem_append_left _ h.mem_madeAll
  | .here hes =>
      rw [made, hes]
      exact List.mem_append_right _ (.head _)

theorem CallsAll.mem_madeAll {call : Caller} {es : List Expr} {s : State} {f : String}
    {args : List Nat} {t : State} (h : CallsAll call es s f args t) :
    ⟨f, args, t⟩ ∈ madeAll call es s := by
  match h with
  | .head h => exact List.mem_append_left _ h.mem_made
  | .tail he h =>
      rw [madeAll, he]
      exact List.mem_append_right _ h.mem_madeAll

end

end Expr

/-! ## Events -/

inductive Event where
  | framed (f : Frame)
  | started (s : State) (line : CodeLine)

namespace Event

def frame? : Event → Option Frame
  | framed f => some f
  | started .. => none

def logged? (verbose : Bool) : Event → Option Entry
  | framed _ => none
  | started s line => some (s.entry verbose line)

end Event

instance (k : Loop) (i : Instr) : Decidable (k.Passes i) :=
  match k with
  | .top => .isTrue trivial
  | .body => inferInstanceAs (Decidable (i ≠ .funReturn))

namespace Machine

variable (m : Machine)

def going? (k : Loop) (s : State) : Option CodeLine :=
  m.program.code[s.ip]?.filter fun line => k.Passes line.instr

theorem going?_eq_some {k : Loop} {s : State} {line : CodeLine} :
    m.going? k s = some line ↔ m.Going k s line := by
  rw [going?, Option.filter_eq_some_iff, decide_eq_true_iff, Going]

def enters? (c : MadeCall) : Option State :=
  match Builtin.ofName? c.function, m.program.labels.lookup c.function with
  | none, some entry =>
    match m.instrAt entry with
    | some (.funEntry _ params preserve) =>
      if m.options.strictArgs ∧ c.args.length ≠ params.length then none
      else
        match prepare params preserve c.args c.state with
        | .ok _ t => some (t.entered c.function (m.locAt c.state.ip) entry)
        | .error .. => none
    | _ => none
  | _, _ => none

theorem enters?_eq_some {c : MadeCall} {u : State} :
    m.enters? c = some u ↔ m.Enters c.function c.args c.state u := by
  constructor
  · intro h
    unfold enters? at h
    split at h
    next entry hbuiltin hlabel =>
      split at h
      next g params preserve hhead =>
        split at h
        next => cases h
        next hcount =>
          split at h
          next saved t hprep =>
            cases h
            exact ⟨entry, params, preserve, saved, t, ⟨hbuiltin, hlabel, ⟨g, hhead⟩, hcount⟩,
              hprep, rfl⟩
          next => cases h
      next => cases h
    next => cases h
  · rintro ⟨entry, params, preserve, saved, t, ⟨hbuiltin, hlabel, ⟨g, hhead⟩, hcount⟩, hprep, rfl⟩
    simp only [enters?, hbuiltin, hlabel, hhead, if_neg hcount, hprep]

def madeBy (n : Nat) (s : State) (line : CodeLine) : List MadeCall :=
  Expr.madeAll (m.caller n) line.instr.operands (s.recorded m.options.verbose line)

def frameOf (c : MadeCall) : Frame := ⟨c.function, c.state.nextFrame, m.locAt c.state.ip⟩

/-- The events of a call, if those of a body that begins in `u` are `body u`. -/
def callEvents (body : State → List Event) (c : MadeCall) : List Event :=
  match m.enters? c with
  | some u => .framed (m.frameOf c) :: body u
  | none => []

def events : Nat → Loop → State → List Event
  | 0, _, _ => []
  | n + 1, k, s =>
    match m.going? k s with
    | some line =>
      .started s line ::
        ((m.madeBy n s line).flatMap (m.callEvents fun u => events n .body u) ++
        match m.step (m.caller n) s with
        | .ok _ t => events n k t
        | .error .. => [])
    | none => []

variable {m}

theorem enters?_of_not_resolves {c : MadeCall}
    (h : ¬ ∃ entry params preserve, m.Resolves c.function c.args entry params preserve) :
    m.enters? c = none := by
  cases henter : m.enters? c with
  | none => rfl
  | some u =>
      obtain ⟨entry, params, preserve, -, -, hres, -⟩ := m.enters?_eq_some.mp henter
      exact absurd ⟨entry, params, preserve, hres⟩ h

theorem events_of_step {n : Nat} {k : Loop} {s t : State} {line : CodeLine}
    (hgo : m.Going k s line) (hstep : m.step (m.caller n) s = .ok () t) :
    m.events (n + 1) k s =
      .started s line :: (m.madeBy n s line).flatMap (m.callEvents (m.events n .body)) ++
        m.events n k t := by
  rw [events, m.going?_eq_some.mpr hgo, hstep]
  rfl

theorem events_of_not_going {k : Loop} {s : State} (h : ∀ line, ¬ m.Going k s line) (n : Nat) :
    m.events n k s = [] := by
  cases n with
  | zero => rfl
  | succ n =>
      have hnone : m.going? k s = none :=
        Option.eq_none_iff_forall_not_mem.mpr fun line hline => h line (m.going?_eq_some.mp hline)
      rw [events, hnone]

/--
A run comes to the state `s` of the loop `k`, and the events so far are `evs`.
The run begins in `s₀` with a frame for the top level.
-/
inductive Comes (m : Machine) (s₀ : State) : List Event → Loop → State → Prop
  | begun : Comes m s₀ (s₀.calls.map .framed) .top s₀
  | next {evs k s line n t} : Comes m s₀ evs k s → m.Going k s line →
      m.step (m.caller n) s = .ok () t →
      Comes m s₀ (evs ++ .started s line ::
        (m.madeBy n s line).flatMap (m.callEvents (m.events n .body))) k t
  | enter {evs k s line n before c after u} : Comes m s₀ evs k s → m.Going k s line →
      m.madeBy n s line = before ++ c :: after → m.Enters c.function c.args c.state u →
      Comes m s₀ (evs ++ .started s line ::
        (before.flatMap (m.callEvents (m.events n .body)) ++ [.framed (m.frameOf c)])) .body u

theorem Comes.of_visits {s₀ s t : State} {evs : List Event} {k k' : Loop}
    (hs : m.Comes s₀ evs k s) (h : m.Visits k s k' t) : ∃ evs', m.Comes s₀ evs' k' t := by
  induction h generalizing evs with
  | here => exact ⟨evs, hs⟩
  | next hgo hstep _ ih => exact ih (hs.next hgo hstep)
  | enter hgo hcalls henter _ ih =>
      obtain ⟨before, after, hsplit⟩ := List.append_of_mem hcalls.mem_madeAll
      exact ih (hs.enter hgo hsplit henter)

/-! ## What is kept event by event -/

/--
What `P` says of the events so far and the state depends on the journal and the
frames alone, and is kept when an instruction is started, when a frame is made,
and when a call returns.
-/
structure Accounting (m : Machine) (P : List Event → State → Prop) : Prop where
  congr : ∀ {evs s t}, P evs s → t.journal = s.journal → t.calls = s.calls →
    t.nextFrame = s.nextFrame → P evs t
  started : ∀ {evs s} line, P evs s →
    P (evs ++ [.started s line]) (s.recorded m.options.verbose line)
  framed : ∀ {evs s} f loc entry, P evs s →
    P (evs ++ [.framed ⟨f, s.nextFrame, loc⟩]) (s.entered f loc entry)
  returned : ∀ {evs s} home, P evs s → P evs (s.returned home)

def Accounts (P : List Event → State → Prop) (call : Caller) (ev : MadeCall → List Event) : Prop :=
  ∀ c evs v t, P evs c.state → call c.function c.args c.state = .ok v t → P (evs ++ ev c) t

theorem local_keeps_calls {α : Type} {x : Exec α} (hx : Exec.Local x) {s t : State} {a : α}
    (h : x s = .ok a t) :
    t.journal = s.journal ∧ t.calls = s.calls ∧ t.nextFrame = s.nextFrame := by
  have hcontrol := hx.control_eq s
  rw [h] at hcontrol
  exact ⟨congrArg Control.journal hcontrol, congrArg Control.calls hcontrol,
    congrArg Control.nextFrame hcontrol⟩

theorem effect_keeps_calls {i : Instr} {vs : List Nat} {s t : State}
    (h : m.effect i vs s = .ok () t) :
    t.journal = s.journal ∧ t.calls = s.calls ∧ t.nextFrame = s.nextFrame := by
  rcases m.effect_local_or_jump i vs with ⟨hlocal, -⟩ | ⟨l, heff, -⟩
  · exact local_keeps_calls hlocal h
  · rw [heff] at h
    obtain ⟨k, -, rfl⟩ := m.jump_eq_ok.mp h
    exact ⟨rfl, rfl, rfl⟩

theorem made_split {made more before after : List MadeCall} {c : MadeCall}
    (h : made ++ more = before ++ c :: after) :
    (∃ rest, made = before ++ c :: rest) ∨
      ∃ rest, before = made ++ rest ∧ more = rest ++ c :: after := by
  rcases List.append_eq_append_iff.mp h with ⟨rest, rfl, hmore⟩ | ⟨rest, rfl, hmore⟩
  · exact .inr ⟨rest, rfl, hmore⟩
  · cases rest with
    | nil => exact .inr ⟨[], by simp, hmore.symm⟩
    | cons d rest =>
        obtain ⟨rfl, -⟩ := List.cons.inj hmore
        exact .inl ⟨rest, rfl⟩

namespace Accounting

variable {P : List Event → State → Prop} (hP : m.Accounting P)

include hP

theorem of_local {α : Type} {x : Exec α} (hx : Exec.Local x) {evs : List Event} {s t : State}
    {a : α} (hs : P evs s) (h : x s = .ok a t) : P evs t := by
  obtain ⟨hjournal, hcalls, hnext⟩ := local_keeps_calls hx h
  exact hP.congr hs hjournal hcalls hnext

section

variable {call : Caller} {ev : MadeCall → List Event}

mutual

theorem eval_ok (hcall : Accounts P call ev) {e : Expr} {evs : List Event} {s t : State} {v : Nat}
    (hs : P evs s) (h : e.eval call s = .ok v t) : P (evs ++ (e.made call s).flatMap ev) t := by
  match e with
  | .lit n =>
      rw [Expr.made, List.flatMap_nil, List.append_nil]
      exact hP.of_local (.pure n) hs h
  | .var x =>
      rw [Expr.made, List.flatMap_nil, List.append_nil]
      exact hP.of_local (Exec.local_readVar x) hs h
  | .addr x =>
      rw [Expr.made, List.flatMap_nil, List.append_nil]
      exact hP.of_local (Exec.local_addressOf x) hs h
  | .word a =>
      obtain ⟨i, u, ha, hread⟩ := Exec.bind_eq_ok.mp h
      exact hP.of_local (Exec.local_readWord i) (eval_ok hcall (e := a) hs ha) hread
  | .byte a =>
      obtain ⟨i, u, ha, hread⟩ := Exec.bind_eq_ok.mp h
      exact hP.of_local (Exec.local_readByte i) (eval_ok hcall (e := a) hs ha) hread
  | .bin op l r =>
      obtain ⟨a, u, hl, hr⟩ := Exec.bind_eq_ok.mp h
      obtain ⟨b, w, hr, happly⟩ := Exec.bind_eq_ok.mp hr
      rw [Expr.made, hl, List.flatMap_append, ← List.append_assoc]
      exact hP.of_local (.lift _) (eval_ok hcall (eval_ok hcall hs hl) hr) happly
  | .call f es =>
      obtain ⟨args, u, hes, hc⟩ := Exec.bind_eq_ok.mp h
      rw [Expr.made, hes, List.flatMap_append, ← List.append_assoc, List.flatMap_singleton]
      exact hcall ⟨f, args, u⟩ _ _ _ (evalAll_ok hcall hs hes) hc

theorem evalAll_ok (hcall : Accounts P call ev) {es : List Expr} {evs : List Event} {s t : State}
    {vs : List Nat} (hs : P evs s) (h : Expr.evalAll call es s = .ok vs t) :
    P (evs ++ (Expr.madeAll call es s).flatMap ev) t := by
  match es with
  | [] =>
      rw [Expr.madeAll, List.flatMap_nil, List.append_nil]
      exact hP.of_local (.pure []) hs h
  | e :: es =>
      obtain ⟨v, u, he, hes⟩ := Exec.bind_eq_ok.mp h
      obtain ⟨vs', w, hes, hpure⟩ := Exec.bind_eq_ok.mp hes
      rw [Expr.madeAll, he, List.flatMap_append, ← List.append_assoc]
      exact hP.of_local (.pure _) (evalAll_ok hcall (eval_ok hcall hs he) hes) hpure

end

mutual

theorem eval_until (hcall : Accounts P call ev) {e : Expr} {evs : List Event} {s : State}
    {before after : List MadeCall} {c : MadeCall} (hs : P evs s)
    (h : e.made call s = before ++ c :: after) :
    P (evs ++ before.flatMap ev) c.state := by
  match e with
  | .lit _ | .var _ | .addr _ => simp [Expr.made] at h
  | .word a | .byte a => exact eval_until hcall (e := a) hs h
  | .bin op l r =>
      -- The call is made by the left operand, or by the right one when the left has its value.
      rcases made_split h with ⟨rest, hl⟩ | ⟨rest, rfl, hr⟩
      · exact eval_until hcall hs hl
      · cases hleft : l.eval call s with
        | error e t => simp [hleft] at hr
        | ok a t =>
            rw [hleft] at hr
            rw [List.flatMap_append, ← List.append_assoc]
            exact eval_until hcall (hP.eval_ok hcall hs hleft) hr
  | .call f es =>
      rcases made_split h with ⟨rest, hes⟩ | ⟨rest, rfl, hc⟩
      · exact evalAll_until hcall hs hes
      · cases hargs : Expr.evalAll call es s with
        | error e t => simp [hargs] at hc
        | ok args t =>
            rw [hargs] at hc
            cases rest with
            | nil =>
                obtain ⟨rfl, -⟩ := List.cons.inj hc
                rw [List.append_nil]
                exact hP.evalAll_ok hcall hs hargs
            | cons d rest => simp at hc

theorem evalAll_until (hcall : Accounts P call ev) {es : List Expr} {evs : List Event} {s : State}
    {before after : List MadeCall} {c : MadeCall} (hs : P evs s)
    (h : Expr.madeAll call es s = before ++ c :: after) :
    P (evs ++ before.flatMap ev) c.state := by
  match es with
  | [] => simp [Expr.madeAll] at h
  | e :: es =>
      rcases made_split h with ⟨rest, he⟩ | ⟨rest, rfl, hes⟩
      · exact eval_until hcall hs he
      · cases hhead : e.eval call s with
        | error e t => simp [hhead] at hes
        | ok v t =>
            rw [hhead] at hes
            rw [List.flatMap_append, ← List.append_assoc]
            exact evalAll_until hcall (hP.eval_ok hcall hs hhead) hes

end

end

theorem prepared {f : String} {args : List Nat} {evs : List Event} {s u : State} (hs : P evs s)
    (h : m.Enters f args s u) :
    P (evs ++ [.framed ⟨f, s.nextFrame, m.locAt s.ip⟩]) u := by
  obtain ⟨entry, params, preserve, saved, t, -, hprep, rfl⟩ := h
  obtain ⟨-, -, hnext⟩ := local_keeps_calls (local_prepare params preserve args) hprep
  rw [← hnext]
  exact hP.framed _ _ _ (hP.of_local (local_prepare _ _ _) hs hprep)

theorem call_ok {body : Exec Unit} {events : State → List Event}
    (hbody : ∀ evs u w, P evs u → body u = .ok () w → P (evs ++ events u) w) :
    Accounts P (m.call body) (m.callEvents events) := by
  intro c evs v t hs h
  by_cases hres : ∃ entry params preserve, m.Resolves c.function c.args entry params preserve
  case neg =>
    rcases m.call_local_or_resolves c.function c.args with ⟨x, hx, heq⟩ | hres'
    · rw [heq] at h
      rw [callEvents, enters?_of_not_resolves hres, List.append_nil]
      exact hP.of_local hx hs h
    · exact absurd hres' hres
  obtain ⟨entry, params, preserve, hres⟩ := hres
  rw [m.call_of_resolves hres, enter_eq] at h
  obtain ⟨saved, s₁, hprep, h⟩ := Exec.bind_eq_ok.mp h
  obtain ⟨_, u, henter, h⟩ := Exec.bind_eq_ok.mp h
  obtain ⟨_, w, hrun, h⟩ := Exec.bind_eq_ok.mp h
  obtain ⟨result, w₁, hconc, h⟩ := Exec.bind_eq_ok.mp h
  obtain ⟨_, w₂, hreturn, h⟩ := Exec.bind_eq_ok.mp h
  cases henter
  cases hreturn
  cases h
  have hin : m.Enters c.function c.args c.state
      (s₁.entered c.function (m.locAt c.state.ip) entry) :=
    ⟨entry, params, preserve, saved, s₁, hres, hprep, rfl⟩
  rw [callEvents, m.enters?_eq_some.mpr hin, List.append_cons]
  have hended := hbody _ _ _ (hP.prepared hs hin) hrun
  exact hP.returned _ (hP.of_local (local_conclude _ _ _) hended hconc)

theorem step_ok {n : Nat} (hcall : Accounts P (m.caller n) (m.callEvents (m.events n .body)))
    {evs : List Event} {k : Loop} {s t : State} {line : CodeLine} (hs : P evs s)
    (hgo : m.Going k s line) (h : m.step (m.caller n) s = .ok () t) :
    P (evs ++ .started s line ::
      (m.madeBy n s line).flatMap (m.callEvents (m.events n .body))) t := by
  rw [m.step_eq hgo.1] at h
  obtain ⟨_, u, hexec, hmodify⟩ := Exec.bind_eq_ok.mp h
  cases hmodify
  rw [execute_eq_effect] at hexec
  obtain ⟨vs, w, hoperands, heffect⟩ := Exec.bind_eq_ok.mp hexec
  have hvalues := hP.evalAll_ok hcall (hP.started line hs) hoperands
  obtain ⟨hjournal, hcalls, hnext⟩ := effect_keeps_calls heffect
  rw [List.append_cons]
  exact hP.congr hvalues hjournal hcalls hnext

theorem loop_ok {n : Nat} {k : Loop} {evs : List Event} {s t : State} (hs : P evs s)
    (h : m.loop k n s = .ok () t) : P (evs ++ m.events n k s) t := by
  induction n generalizing k evs s t with
  | zero =>
      rw [loop_zero] at h
      cases h
  | succ n ih =>
      have hcall : Accounts P (m.caller n) (m.callEvents (m.events n .body)) :=
        hP.call_ok fun evs u w hu hw => ih (k := .body) hu hw
      by_cases hgo : ∃ line, m.Going k s line
      · obtain ⟨line, hgo⟩ := hgo
        rw [m.loop_succ_of_going hgo] at h
        obtain ⟨_, u, hstep, hrest⟩ := Exec.bind_eq_ok.mp h
        rw [events_of_step hgo hstep, ← List.append_assoc]
        exact ih (hP.step_ok hcall hs hgo hstep) hrest
      · have hstop : ∀ line, ¬ m.Going k s line := fun line hline => hgo ⟨line, hline⟩
        rcases m.loop_succ_of_not_going (n := n) hstop with ⟨hok, -⟩ | ⟨-, -, herror⟩
        · rw [hok] at h
          cases h
          rwa [events_of_not_going hstop, List.append_nil]
        · rw [herror] at h
          cases h

theorem caller_ok (n : Nat) : Accounts P (m.caller n) (m.callEvents (m.events n .body)) :=
  hP.call_ok fun _ _ _ hu hw => hP.loop_ok (k := .body) hu hw

theorem of_comes {s₀ s : State} {evs : List Event} {k : Loop} (h : m.Comes s₀ evs k s)
    (hs₀ : P (s₀.calls.map .framed) s₀) : P evs s := by
  induction h with
  | begun => exact hs₀
  | next _ hgo hstep ih => exact hP.step_ok (hP.caller_ok _) ih hgo hstep
  | @enter evs k s line n before c after u _ hgo hmade henter ih =>
      have hcalled := hP.evalAll_until (hP.caller_ok n) (hP.started line ih) hmade
      rw [List.append_cons, ← List.append_assoc]
      exact hP.prepared hcalled henter

end Accounting

end Machine

end BrownLang
