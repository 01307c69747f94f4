import BrownLang.Proofs.Execution.ActiveCalls
import BrownLang.Proofs.Execution.Fuel
import BrownLang.Proofs.Execution.Halting

/-!
# Strict machines

A strict machine refuses a call of a function of the program with a wrong
number of arguments, before the call does anything.  Up to the first such call
it does what a lax machine does, and so all along if there is none.
-/

namespace BrownLang

open Exec (bind_eq_error bind_eq_ok bind_of_error bind_of_ok)

/-! ## Actions that agree up to a fault -/

namespace Exec

variable {α β : Type} {B : Fault → Prop}

def FailsBy (B : Fault → Prop) (r : EStateM.Result Halt State α) : Prop :=
  ∃ f t, B f ∧ r = .error (.fault f) t

theorem FailsBy.bind {x : Exec α} {f : α → Exec β} {s : State} (h : FailsBy B (x s)) :
    FailsBy B ((x >>= f) s) := by
  obtain ⟨e, t, hB, herror⟩ := h
  exact ⟨e, t, hB, bind_of_error herror⟩

theorem FailsBy.bind_of_ok {x : Exec α} {f : α → Exec β} {s t : State} {a : α}
    (hx : x s = .ok a t) (h : FailsBy B (f a t)) : FailsBy B ((x >>= f) s) := by
  rwa [Exec.bind_of_ok hx]

end Exec

open Exec (FailsBy)

namespace Coupling

/-- The second action does what the first one does, unless it fails by `B`. -/
def upTo (B : Fault → Prop) : Coupling where
  Rel x y := ∀ s, y s = x s ∨ FailsBy B (y s)
  pure _ _ := .inl rfl
  bind := by
    intro α β x y f g hxy hfg s
    rcases hxy s with heq | hfail
    · cases hx : x s with
      | error h t => exact .inl ((bind_of_error (heq.trans hx)).trans (bind_of_error hx).symm)
      | ok a t =>
          rw [bind_of_ok (heq.trans hx), bind_of_ok hx]
          exact hfg a t
    · exact .inr hfail.bind

def succeeding (B : Fault → Prop) : Coupling where
  Rel x y := ∀ s a t, x s = .ok a t → y s = .ok a t ∨ FailsBy B (y s)
  pure _ _ _ _ h := .inl h
  bind := by
    intro α β x y f g hxy hfg s b u hbind
    obtain ⟨a, t, hx, hf⟩ := bind_eq_ok.mp hbind
    rcases hxy s a t hx with hy | hfail
    · rw [bind_of_ok hy]
      exact hfg a t b u hf
    · exact .inr hfail.bind

variable {α : Type} {x y : Exec α} {B : Fault → Prop}

theorem succeeding_of_upTo (h : (upTo B).Rel x y) : (succeeding B).Rel x y :=
  fun s _ _ hx => (h s).imp_left fun heq => heq.trans hx

theorem succeeding_of_upTo_symm (h : (upTo B).Rel x y) : (succeeding fun _ => False).Rel y x := by
  intro s a t hy
  rcases h s with heq | ⟨e, u, -, herror⟩
  · exact .inl (heq.symm.trans hy)
  · exact nomatch hy.symm.trans herror

theorem succeeding_of_completing (h : completing.Rel x y) : (succeeding B).Rel x y :=
  fun _ _ _ hx => .inl (completing_ok h hx)

variable (B) (p : Program) (o : Options)

theorem covers_upTo : (upTo B).Covers p o o := .of_refl (fun _ _ => .inl rfl) p o

theorem covers_succeeding : (succeeding B).Covers p o o := .of_refl (fun _ _ _ _ => .inl) p o

end Coupling

open Coupling

/-! ## Calls made by both of two callers -/

namespace Expr

variable {B : Fault → Prop} {p : Program} {call call' : Caller} {f : String} {args : List Nat}
  {u : State}

mutual

theorem Calls.keep (hcall : ∀ f args, (succeeding B).Rel (call f args) (call' f args)) {e : Expr}
    (he : p.Mentions e) {s : State} (hc : e.Calls call s f args u) :
    e.Calls call' s f args u ∨ FailsBy B (e.eval call' s) := by
  match hc with
  | .word hc => exact (hc.keep hcall he.word).imp .word (·.bind)
  | .byte hc => exact (hc.keep hcall he.byte).imp .byte (·.bind)
  | .left hc => exact (hc.keep hcall he.left).imp .left (·.bind)
  | .right hl hc =>
      rcases (covers_succeeding B p {}).eval hcall he.left _ _ _ hl with hl' | hfail
      · exact (hc.keep hcall he.right).imp (.right hl') fun hr => .bind_of_ok hl' hr.bind
      · exact .inr hfail.bind
  | .within hc => exact (hc.keep hcall he.args).imp .within (·.bind)
  | .here hes =>
      exact ((covers_succeeding B p {}).evalAll hcall he.args _ _ _ hes).imp .here (·.bind)

theorem CallsAll.keep (hcall : ∀ f args, (succeeding B).Rel (call f args) (call' f args))
    {es : List Expr} (hes : p.MentionsAll es) {s : State} (hc : CallsAll call es s f args u) :
    CallsAll call' es s f args u ∨ FailsBy B (evalAll call' es s) := by
  match hc with
  | .head hc => exact (hc.keep hcall hes.head).imp .head (·.bind)
  | .tail he hc =>
      rcases (covers_succeeding B p {}).eval hcall hes.head _ _ _ he with he' | hfail
      · exact (hc.keep hcall hes.tail).imp (.tail he') fun hr => .bind_of_ok he' hr.bind
      · exact .inr hfail.bind

end

end Expr

/-! ## Calls with a wrong number of arguments -/

namespace Machine

variable (m : Machine) {f : String} {args : List Nat}

def withStrictArgs (strict : Bool) : Machine :=
  { m with options := { m.options with strictArgs := strict } }

/-- Calling `f` with `args` leads to a function that has another number of parameters. -/
def Miscalls (f : String) (args : List Nat) (wanted : Nat) : Prop :=
  ∃ entry params preserve, (m.withStrictArgs false).Resolves f args entry params preserve ∧
    params.length = wanted ∧ args.length ≠ wanted

/-- The loop `k`, which begins in `s`, comes to call `f` with `args` in `u`. -/
inductive Asks (k : Loop) (s : State) : String → List Nat → State → Prop
  | intro {k' t line fuel f args u} : m.Visits k s k' t → m.Going k' t line →
      Expr.CallsAll (m.caller fuel) line.instr.operands (t.recorded m.options.verbose line)
        f args u → Asks k s f args u

variable {m}

theorem Resolves.lax {strict : Bool} {entry : Nat} {params : List String} {preserve : Bool}
    (h : (m.withStrictArgs strict).Resolves f args entry params preserve) :
    (m.withStrictArgs false).Resolves f args entry params preserve :=
  ⟨h.not_builtin, h.label, h.head, fun hcount => nomatch hcount.1⟩

theorem Resolves.strict {entry : Nat} {params : List String} {preserve : Bool}
    (h : (m.withStrictArgs false).Resolves f args entry params preserve)
    (hcount : args.length = params.length) :
    (m.withStrictArgs true).Resolves f args entry params preserve :=
  ⟨h.not_builtin, h.label, h.head, fun hne => hne.2 hcount⟩

theorem Enters.lax {strict : Bool} {s u : State}
    (h : (m.withStrictArgs strict).Enters f args s u) :
    (m.withStrictArgs false).Enters f args s u := by
  obtain ⟨entry, params, preserve, saved, t, hres, hprep, rfl⟩ := h
  exact ⟨entry, params, preserve, saved, t, hres.lax, hprep, rfl⟩

theorem call_of_miscalls {wanted : Nat} (h : m.Miscalls f args wanted) (body : Exec Unit) :
    (m.withStrictArgs true).call body f args = Exec.fail (.arity f wanted args.length) := by
  obtain ⟨entry, params, preserve, hres, rfl, hne⟩ := h
  obtain ⟨g, hg⟩ := hres.head
  simp only [call, hres.not_builtin, callFunction]
  rw [show (m.withStrictArgs true).program.labels.lookup f = _ from hres.label]
  dsimp only
  rw [show ((m.withStrictArgs true).program.code[entry]?).map CodeLine.instr = _ from hg]
  exact if_pos ⟨rfl, hne⟩

theorem Miscalls.fails {wanted : Nat} (h : m.Miscalls f args wanted) (body : Exec Unit)
    (s : State) : FailsBy Fault.IsMiscount ((m.withStrictArgs true).call body f args s) := by
  rw [call_of_miscalls h]
  exact ⟨.arity f wanted args.length, s, ⟨f, wanted, args.length, rfl⟩, rfl⟩

theorem refuses_or_resolves (hb : Builtin.ofName? f = none) (args : List Nat) :
    (∃ fault : Fault, ¬ fault.IsMiscount ∧ ∀ strict body,
      (m.withStrictArgs strict).call body f args = Exec.fail fault) ∨
    ∃ entry params preserve, (m.withStrictArgs false).Resolves f args entry params preserve := by
  cases hl : m.program.labels.lookup f with
  | none =>
      refine .inl ⟨.functionNotFound f, ?_, fun strict body => ?_⟩
      · rintro ⟨_, _, _, h⟩
        cases h
      simp only [call, hb, callFunction, withStrictArgs, hl]
  | some entry =>
      by_cases hhead : ∃ g params preserve, m.instrAt entry = some (.funEntry g params preserve)
      · obtain ⟨g, params, preserve, hg⟩ := hhead
        refine .inr ⟨entry, params, preserve, hb, hl, ⟨g, hg⟩, fun hcount => ?_⟩
        exact Bool.noConfusion hcount.1
      · refine .inl ⟨.notAFunction f, ?_, fun strict body => ?_⟩
        · rintro ⟨_, _, _, h⟩
          cases h
        simp only [call, hb, callFunction, withStrictArgs, hl]
        split
        next g params preserve hg => exact absurd ⟨g, params, preserve, hg⟩ hhead
        next => rfl

/-! ## The same loop of a lax and of a strict machine -/

variable (m)

theorem call_upTo {body body' : Exec Unit} (hbody : (upTo Fault.IsMiscount).Rel body body')
    (f : String) (args : List Nat) :
    (upTo Fault.IsMiscount).Rel ((m.withStrictArgs false).call body f args)
      ((m.withStrictArgs true).call body' f args) := by
  cases hb : Builtin.ofName? f with
  | some b =>
      simp only [call, hb]
      exact fun s => .inl rfl
  | none =>
      rcases m.refuses_or_resolves hb args with
        ⟨fault, -, hfails⟩ | ⟨entry, params, preserve, hres⟩
      · rw [hfails, hfails]
        exact fun s => .inl rfl
      by_cases hcount : args.length = params.length
      · obtain ⟨g, hg⟩ := hres.head
        obtain ⟨line, hline, hhead⟩ := Option.map_eq_some_iff.mp hg
        rw [call_of_resolves _ hres, call_of_resolves _ (hres.strict hcount)]
        exact (covers_upTo _ m.program m.options).enter hbody hline hhead args
      · exact fun s => .inr (Miscalls.fails ⟨entry, params, preserve, hres, rfl, hcount⟩ body' s)

theorem untilReturn_upTo (n : Nat) :
    (upTo Fault.IsMiscount).Rel ((m.withStrictArgs false).untilReturn n)
      ((m.withStrictArgs true).untilReturn n) := by
  have h := covers_upTo Fault.IsMiscount m.program m.options
  induction n with
  | zero => exact h.unfinished
  | succ n ih =>
      rw [untilReturn_succ, untilReturn_succ]
      refine (upTo _).bind h.here fun i => ?_
      dsimp only [instrAt, withStrictArgs]
      split
      · exact h.exit
      · exact (upTo _).pure ()
      · exact (upTo _).bind (h.step (m.call_upTo ih)) fun _ => ih

theorem caller_upTo (n : Nat) (f : String) (args : List Nat) :
    (upTo Fault.IsMiscount).Rel ((m.withStrictArgs false).caller n f args)
      ((m.withStrictArgs true).caller n f args) :=
  m.call_upTo (m.untilReturn_upTo n) f args

theorem step_upTo (n : Nat) :
    (upTo Fault.IsMiscount).Rel ((m.withStrictArgs false).step ((m.withStrictArgs false).caller n))
      ((m.withStrictArgs true).step ((m.withStrictArgs true).caller n)) :=
  (covers_upTo _ m.program m.options).step (m.caller_upTo n)

theorem untilEnd_upTo (n : Nat) :
    (upTo Fault.IsMiscount).Rel ((m.withStrictArgs false).untilEnd n)
      ((m.withStrictArgs true).untilEnd n) := by
  have h := covers_upTo Fault.IsMiscount m.program m.options
  induction n with
  | zero => exact h.unfinished
  | succ n ih =>
      rw [untilEnd_succ, untilEnd_succ]
      refine (upTo _).bind h.here fun i => ?_
      by_cases hi : i < m.program.code.size
      · rw [if_pos (show i < (m.withStrictArgs false).program.code.size from hi),
          if_pos (show i < (m.withStrictArgs true).program.code.size from hi)]
        exact (upTo _).bind (m.step_upTo n) fun _ => ih
      · rw [if_neg (show ¬ i < (m.withStrictArgs false).program.code.size from hi),
          if_neg (show ¬ i < (m.withStrictArgs true).program.code.size from hi)]
        exact (upTo _).pure ()

theorem loop_upTo (k : Loop) (n : Nat) :
    (upTo Fault.IsMiscount).Rel ((m.withStrictArgs false).loop k n)
      ((m.withStrictArgs true).loop k n) := by
  cases k with
  | top => exact m.untilEnd_upTo n
  | body => exact m.untilReturn_upTo n

/-! ## Loops that fail -/

variable {m} {B : Fault → Prop} {k k' : Loop} {s t u : State} {line : CodeLine} {n n' : Nat}

theorem loop_fails_of_le (hle : n ≤ n') (h : FailsBy B (m.loop k n s)) :
    FailsBy B (m.loop k n' s) := by
  obtain ⟨e, t, hB, herror⟩ := h
  exact ⟨e, t, hB, loop_fault_of_le m hle herror⟩

theorem loop_fails_of_operands (hgo : m.Going k s line)
    (h : FailsBy B
      (Expr.evalAll (m.caller n) line.instr.operands (s.recorded m.options.verbose line))) :
    FailsBy B (m.loop k (n + 1) s) := by
  rw [loop_succ_of_going _ hgo]
  refine .bind ?_
  rw [step_eq _ hgo.1, execute_eq_effect]
  exact h.bind.bind

theorem loop_fails_of_call (hgo : m.Going k s line)
    (hcalls : Expr.CallsAll (m.caller n) line.instr.operands
      (s.recorded m.options.verbose line) f args t)
    (h : FailsBy B (m.caller n f args t)) : FailsBy B (m.loop k (n + 1) s) := by
  obtain ⟨e, u, hB, herror⟩ := h
  exact loop_fails_of_operands hgo ⟨e, u, hB, hcalls.evalAll_error herror⟩

theorem call_fails_of_enters {body : Exec Unit} (henter : m.Enters f args s u)
    (h : FailsBy B (body u)) : FailsBy B (m.call body f args s) := by
  obtain ⟨entry, params, preserve, saved, t, hres, hprep, rfl⟩ := henter
  rw [call_of_resolves _ hres, enter_eq]
  exact .bind_of_ok hprep (.bind_of_ok rfl h.bind)

theorem Visits.fails (hv : m.Visits k s k' t) (h : FailsBy B (m.loop k' n t)) :
    ∃ n, FailsBy B (m.loop k n s) := by
  induction hv with
  | here => exact ⟨n, h⟩
  | @next k s line fuel t _ _ hgo hstep _ ih =>
      obtain ⟨n', hrest⟩ := ih h
      have hstep' := completing_ok
        (m.covers_completing.step (m.caller_completing (Nat.le_max_left fuel n'))) hstep
      refine ⟨max fuel n' + 1, ?_⟩
      rw [loop_succ_of_going _ hgo]
      exact .bind_of_ok hstep' (loop_fails_of_le (Nat.le_max_right fuel n') hrest)
  | @enter k s line fuel f args t u _ _ hgo hcalls henter _ ih =>
      obtain ⟨n', hbody⟩ := ih h
      have hmore (f args) := succeeding_of_completing (B := fun _ => False)
        (m.caller_completing (Nat.le_max_left fuel n') f args)
      rcases hcalls.keep hmore (Program.mentions_operands hgo.1) with hcalls | ⟨_, _, h, -⟩
      · have hbody := loop_fails_of_le (Nat.le_max_right fuel n') hbody
        exact ⟨_, loop_fails_of_call hgo hcalls (call_fails_of_enters henter hbody)⟩
      · exact h.elim

/-! ## Calls that come up in both runs -/

variable (m)

/--
What the machine with strictness `b` does, the one with strictness `b'` does
too, unless that fails by `B`.
-/
structure Keeps (b b' : Bool) (B : Fault → Prop) : Prop where
  caller : ∀ n f args, (succeeding B).Rel ((m.withStrictArgs b).caller n f args)
    ((m.withStrictArgs b').caller n f args)
  enters : ∀ {f args s u}, (m.withStrictArgs b).Enters f args s u →
    (m.withStrictArgs b').Enters f args s u ∨
      ∀ n, FailsBy B ((m.withStrictArgs b').caller n f args s)

theorem keeps_strict : m.Keeps false true Fault.IsMiscount where
  caller n f args := succeeding_of_upTo (m.caller_upTo n f args)
  enters := by
    rintro f args s u ⟨entry, params, preserve, saved, t, hres, hprep, rfl⟩
    by_cases hcount : args.length = params.length
    · exact .inl ⟨entry, params, preserve, saved, t, hres.strict hcount, hprep, rfl⟩
    · exact .inr fun n => Miscalls.fails ⟨entry, params, preserve, hres, rfl, hcount⟩ _ s

theorem keeps_lax : m.Keeps true false fun _ => False where
  caller n f args := succeeding_of_upTo_symm (m.caller_upTo n f args)
  enters h := .inl h.lax

variable {m} {b b' : Bool}

theorem Keeps.visits (hkeeps : m.Keeps b b' B) (h : (m.withStrictArgs b).Visits k s k' t) :
    (m.withStrictArgs b').Visits k s k' t ∨ ∃ n, FailsBy B ((m.withStrictArgs b').loop k n s) := by
  induction h with
  | here => exact .inl .here
  | @next k s line n t k' u hgo hstep _ ih =>
      have hgo' : (m.withStrictArgs b').Going k s line := hgo
      rcases (covers_succeeding B m.program m.options).step (hkeeps.caller n) s () t hstep with
        hstep' | hfail
      · rcases ih with hv | ⟨n', hfail⟩
        · exact .inl (.next hgo' hstep' hv)
        · exact .inr (Visits.fails (.next hgo' hstep' .here) hfail)
      · refine .inr ⟨n + 1, ?_⟩
        rw [loop_succ_of_going _ hgo']
        exact hfail.bind
  | @enter k s line n f args t u k' v hgo hcalls henter _ ih =>
      have hgo' : (m.withStrictArgs b').Going k s line := hgo
      rcases hcalls.keep (hkeeps.caller n) (Program.mentions_operands hgo.1) with hcalls' | hfail
      · rcases hkeeps.enters henter with henter' | hfail
        · rcases ih with hv | ⟨n', hfail⟩
          · exact .inl (.enter hgo' hcalls' henter' hv)
          · exact .inr (Visits.fails (.enter hgo' hcalls' henter' .here) hfail)
        · exact .inr ⟨n + 1, loop_fails_of_call hgo' hcalls' (hfail n)⟩
      · exact .inr ⟨n + 1, loop_fails_of_operands hgo' hfail⟩

theorem Keeps.asks (hkeeps : m.Keeps b b' B) (h : (m.withStrictArgs b).Asks k s f args u) :
    (m.withStrictArgs b').Asks k s f args u ∨
      ∃ n, FailsBy B ((m.withStrictArgs b').loop k n s) := by
  obtain ⟨hv, hgo, hcalls⟩ := h
  rcases hkeeps.visits hv with hv' | hfail
  · have hgo' : (m.withStrictArgs b').Going _ _ _ := hgo
    rcases hcalls.keep (hkeeps.caller _) (Program.mentions_operands hgo.1) with hcalls' | hfail
    · exact .inl ⟨hv', hgo', hcalls'⟩
    · exact .inr (hv'.fails (loop_fails_of_operands hgo' hfail))
  · exact .inr hfail

theorem Asks.of_visits (h : m.Asks k' t f args u) (hv : m.Visits k s k' t) :
    m.Asks k s f args u := by
  obtain ⟨hv', hgo, hcalls⟩ := h
  exact ⟨hv.trans hv', hgo, hcalls⟩

/-! ## Miscounted calls -/

theorem Asks.fails {wanted : Nat} (h : (m.withStrictArgs true).Asks k s f args u)
    (hwrong : m.Miscalls f args wanted) :
    ∃ n, FailsBy Fault.IsMiscount ((m.withStrictArgs true).loop k n s) := by
  obtain ⟨hv, hgo, hcalls⟩ := h
  exact hv.fails (loop_fails_of_call hgo hcalls (hwrong.fails _ u))

def Counted (h : Halt) : Prop := ∀ e : Fault, h = .fault e → ¬ e.IsMiscount

variable (m) in
theorem covers_counted : (halting Counted).Covers m.program (m.withStrictArgs false).options
    (m.withStrictArgs false).options := by
  refine covers_halting (fun f hstrict e he hcount => ?_) (fun _ h => nomatch h)
    fun _ h => nomatch h
  cases he
  exact nomatch hstrict hcount

section

variable {e : Fault} (he : e.IsMiscount)

include he

theorem not_counted : ¬ Counted (.fault e) := fun h => h e rfl he

theorem miscount_of_call {body : Exec Unit}
    (h : (m.withStrictArgs true).call body f args s = .error (.fault e) t) :
    (∃ wanted, m.Miscalls f args wanted ∧ e = .arity f wanted args.length ∧ t = s) ∨
      ∃ u, (m.withStrictArgs true).Enters f args s u ∧ body u = .error (.fault e) t := by
  have hcovers := m.covers_counted
  cases hb : Builtin.ofName? f with
  | some b =>
      simp only [call, hb] at h
      exact absurd ((hcovers.invoke b args).2 s _ t h) (not_counted he)
  | none =>
      rcases m.refuses_or_resolves hb args with
        ⟨fault, hfault, hfails⟩ | ⟨entry, params, preserve, hres⟩
      · rw [hfails] at h
        injection h with hh
        injection hh with hh
        exact absurd (hh ▸ he) hfault
      by_cases hcount : args.length = params.length
      · have hres' := hres.strict hcount
        have hparams := hres'.params_subset
        rw [call_of_resolves _ hres', enter_eq] at h
        rcases bind_eq_error.mp h with hprep | ⟨saved, t₁, hprep, h⟩
        · exact absurd ((hcovers.prepare hparams preserve args).2 s _ t hprep) (not_counted he)
        rcases bind_eq_error.mp h with henter | ⟨_, u, henter, h⟩
        · cases henter
        injection henter with _ hu
        subst hu
        rcases bind_eq_error.mp h with hbody | ⟨_, w, -, h⟩
        · exact .inr ⟨_, ⟨entry, params, preserve, saved, t₁, hres', hprep, rfl⟩, hbody⟩
        rcases bind_eq_error.mp h with hconc | ⟨r, w₁, -, h⟩
        · exact absurd ((hcovers.conclude hparams preserve saved).2 w _ t hconc) (not_counted he)
        rcases bind_eq_error.mp h with hret | ⟨_, w₂, -, hpure⟩
        · cases hret
        · cases hpure
      · have hwrong : m.Miscalls f args params.length :=
          ⟨entry, params, preserve, hres, rfl, hcount⟩
        rw [call_of_miscalls hwrong] at h
        injection h with hh ht
        injection hh with hh
        exact .inl ⟨params.length, hwrong, hh.symm, ht.symm⟩

theorem asks_of_miscount (h : (m.withStrictArgs true).loop k n s = .error (.fault e) t) :
    ∃ f args wanted, m.Miscalls f args wanted ∧ e = .arity f wanted args.length ∧
      (m.withStrictArgs true).Asks k s f args t := by
  have hcovers := m.covers_counted
  induction n generalizing k s with
  | zero =>
      rw [loop_zero] at h
      injection h with hh
      exact nomatch hh
  | succ n ih =>
      by_cases hgo : ∃ line, (m.withStrictArgs true).Going k s line
      · obtain ⟨line, hgo⟩ := hgo
        rw [loop_succ_of_going _ hgo] at h
        rcases bind_eq_error.mp h with hstep | ⟨_, u, hstep, hrest⟩
        · rw [step_eq _ hgo.1, execute_eq_effect] at hstep
          rcases bind_eq_error.mp hstep with hexec | ⟨_, u, -, hmodify⟩
          · rcases bind_eq_error.mp hexec with hops | ⟨vs, u, -, heff⟩
            · obtain ⟨f, args, u, hcalls, hcall⟩ := Expr.evalAll_halted hcovers (not_counted he)
                (Program.mentions_operands hgo.1) hops
              rcases miscount_of_call he hcall with ⟨wanted, hwrong, heq, rfl⟩ | ⟨v, henter, hbody⟩
              · exact ⟨f, args, wanted, hwrong, heq, .here, hgo, hcalls⟩
              · obtain ⟨g, args', wanted, hwrong, heq, hasks⟩ := ih (k := .body) hbody
                exact ⟨g, args', wanted, hwrong, heq,
                  hasks.of_visits (.enter hgo hcalls henter .here)⟩
            · exact absurd ((hcovers.effect hgo.1 vs).2 u _ t heff) (not_counted he)
          · exact nomatch hmodify
        · obtain ⟨g, args', wanted, hwrong, heq, hasks⟩ := ih hrest
          exact ⟨g, args', wanted, hwrong, heq, hasks.of_visits (.next hgo hstep .here)⟩
      · rcases (m.withStrictArgs true).loop_succ_of_not_going (n := n)
          (fun line hl => hgo ⟨line, hl⟩) with ⟨hok, -⟩ | ⟨-, -, hexit⟩
        · exact nomatch hok.symm.trans h
        · have := hexit.symm.trans h
          injection this with hh
          exact nomatch hh

end

/-! ## Whole runs -/

theorem run_of_fails {fuel : Nat}
    (h : FailsBy Fault.IsMiscount ((m.withStrictArgs true).loop .top fuel s.begun)) :
    ∃ f args wanted u, m.Miscalls f args wanted ∧
      (m.withStrictArgs false).Asks .top s.begun f args u ∧
      (m.withStrictArgs true).Asks .top s.begun f args u ∧
      ∀ fuel' ≥ fuel, (m.withStrictArgs true).run fuel' s =
        (.crashed (crashAt u (.arity f wanted args.length)), u) := by
  obtain ⟨e, u, he, herror⟩ := h
  obtain ⟨f, args, wanted, hwrong, rfl, hasks⟩ := asks_of_miscount he herror
  refine ⟨f, args, wanted, u, hwrong, ?_, hasks, fun fuel' hle => ?_⟩
  · rcases m.keeps_lax.asks hasks with hlax | ⟨_, _, _, h, -⟩
    · exact hlax
    · exact h.elim
  · rw [run_eq, loop_fault_of_le _ hle herror]

theorem run_eq_or_fails (m : Machine) (fuel : Nat) (s : State) :
    (m.withStrictArgs true).run fuel s = (m.withStrictArgs false).run fuel s ∧
        (∀ c, ((m.withStrictArgs true).run fuel s).1 = .crashed c → ¬ c.fault.IsMiscount) ∨
      FailsBy Fault.IsMiscount ((m.withStrictArgs true).loop .top fuel s.begun) := by
  rcases m.loop_upTo .top fuel s.begun with heq | hfail
  · have hrun : (m.withStrictArgs true).run fuel s = (m.withStrictArgs false).run fuel s := by
      rw [run_eq, run_eq, heq]
    refine .inl ⟨hrun, fun c hc hcount => ?_⟩
    rw [hrun] at hc
    have herror := loop_of_run_crashed (Prod.ext hc rfl)
    exact (m.covers_counted.untilEnd fuel).2 _ _ _ herror c.fault rfl hcount
  · exact .inr hfail

/--
A strict run does what the lax one does, or it fails because a call passes a
wrong number of arguments.  The lax run comes to this call too, in the state in
which the strict one ends.  If no call that the lax run comes to is such, the
strict run never fails like this; and otherwise it does.
-/
theorem strictness_only_refuses (m : Machine) (s : State) :
    let lax := m.withStrictArgs false
    let strict := m.withStrictArgs true
    (∀ fuel,
      strict.run fuel s = lax.run fuel s ∧
        (∀ c, (strict.run fuel s).1 = .crashed c → ¬ c.fault.IsMiscount) ∨
      ∃ f args wanted u, m.Miscalls f args wanted ∧ lax.Asks .top s.begun f args u ∧
        strict.Asks .top s.begun f args u ∧
        ∀ fuel' ≥ fuel,
          strict.run fuel' s = (.crashed (crashAt u (.arity f wanted args.length)), u)) ∧
    ((∃ fuel c, (strict.run fuel s).1 = .crashed c ∧ c.fault.IsMiscount) ↔
      ∃ f args wanted u, m.Miscalls f args wanted ∧ lax.Asks .top s.begun f args u) := by
  intro lax strict
  refine ⟨fun fuel => (m.run_eq_or_fails fuel s).imp_right run_of_fails, ?_, ?_⟩
  · rintro ⟨fuel, c, hc, hcount⟩
    rcases m.run_eq_or_fails fuel s with ⟨-, hnone⟩ | hfail
    · exact absurd hcount (hnone c hc)
    · obtain ⟨f, args, wanted, u, hwrong, hlax, -⟩ := run_of_fails hfail
      exact ⟨f, args, wanted, u, hwrong, hlax⟩
  · rintro ⟨f, args, wanted, u, hwrong, hlax⟩
    have hfail : ∃ n, FailsBy Fault.IsMiscount (strict.loop .top n s.begun) := by
      rcases m.keeps_strict.asks hlax with hstrict | hfail
      · exact hstrict.fails hwrong
      · exact hfail
    obtain ⟨n, e, t, he, herror⟩ := hfail
    refine ⟨n, crashAt t e, ?_, he⟩
    rw [run_eq, herror]

end Machine

end BrownLang
