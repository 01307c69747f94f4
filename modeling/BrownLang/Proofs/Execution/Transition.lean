import BrownLang.Proofs.Execution.Coupling
import BrownLang.Proofs.Execution.Visit

/-!
# What a run does to the state

If whatever a machine does at a time leads from a state to a related one, then
so does all that it does, and every state that comes up in a run is related to
those that came up before.
-/

namespace BrownLang

/-- An action leads from every state to a related one. -/
def Coupling.along (Q : State → State → Prop) (refl : ∀ s, Q s s)
    (trans : ∀ s t u, Q s t → Q t u → Q s u) : Coupling where
  Rel x y := x = y ∧ ∀ s, Q s (Exec.Result.state (x s))
  pure _ := ⟨rfl, refl⟩
  bind := by
    rintro α β x _ f g ⟨rfl, hx⟩ hf
    refine ⟨congrArg _ (funext fun a => (hf a).1), fun s => ?_⟩
    have hs := hx s
    cases h : x s with
    | ok a t =>
        rw [h] at hs
        rw [Exec.bind_of_ok h]
        exact trans s t _ hs ((hf a).2 t)
    | error e t =>
        rw [h] at hs
        rw [Exec.bind_of_error h]
        exact hs

/-! ## One change at a time -/

def Sink.Takes : Sink → Nat → Prop
  | .steady, _ => True
  | .failing limit _, writes => writes < limit

inductive Machine.Changes (m : Machine) : State → State → Prop
  | allocate {s x} : x ∈ returnVariable :: m.program.vars → s.vars.lookup x = none →
      Changes m s { s with memory := s.memory.allocateWord, vars := s.vars ++ [(x, s.memory.size)] }
  | setWord {s} (a v) : Changes m s { s with memory := s.memory.setWord a v }
  | setByte {s} (a b) : Changes m s { s with memory := s.memory.setByte a b }
  | write {s} (text) : m.options.sink.Takes s.writes.size →
      Changes m s { s with writes := s.writes.push text }
  | draw {s} (low high) : Changes m s { s with generator := (s.generator.draw low high).2 }
  | perform {s} (c) : Changes m s { s with canvas := (s.canvas.perform c).1 }
  | jump {s} (i) : Changes m s { s with ip := i }
  | record {s} (line) : Changes m s (s.recorded m.options.verbose line)
  | push {s} (f loc) : Changes m s
      { s with calls := ⟨f, s.nextFrame, loc⟩ :: s.calls, nextFrame := s.nextFrame + 1 }
  | pop {s f rest} : s.calls = f :: rest →
      Changes m s { s with calls := rest, journal := s.journal.dropFrame f.id }

theorem Exec.write_takes (sink : Sink) {s : State} (h : sink.Takes s.writes.size) (text : String) :
    write sink text s = .ok () { s with writes := s.writes.push text } := by
  cases sink with
  | steady => rfl
  | failing limit failure =>
      have hlt : s.writes.size < limit := h
      rw [write, get_bind, if_pos hlt]
      rfl

theorem Exec.write_refuses {limit : Nat} {failure : SinkFailure} {s : State}
    (h : ¬ s.writes.size < limit) (text : String) :
    write (.failing limit failure) text s = .error (.fault failure.fault) s := by
  rw [write, get_bind, if_neg h]
  rfl

namespace Coupling

variable {Q : State → State → Prop} {refl : ∀ s, Q s s} {trans : ∀ s t u, Q s t → Q t u → Q s u}
  {α β : Type}

theorem along_throw (h : Halt) :
    (along Q refl trans).Rel (throw h : Exec α) (throw h) :=
  ⟨rfl, refl⟩

theorem along_lift (r : Except Fault α) :
    (along Q refl trans).Rel (Exec.lift r) (Exec.lift r) := by
  cases r with
  | ok a => exact (along Q refl trans).pure a
  | error f => exact along_throw (.fault f)

theorem along_get_bind {f : State → Exec β} (hf : ∀ s, (along Q refl trans).Rel (f s) (f s)) :
    (along Q refl trans).Rel (get >>= f) (get >>= f) :=
  ⟨rfl, fun s => (hf s).2 s⟩

theorem along_modify {g : State → State} (hg : ∀ s : State, Q s (g s)) :
    (along Q refl trans).Rel (modify g : Exec Unit) (modify g) :=
  ⟨rfl, hg⟩

theorem along_check (access : Access) (a : Nat) :
    (along Q refl trans).Rel (Exec.check access a) (Exec.check access a) :=
  along_get_bind fun _ => along_lift _

theorem along_readWord (a : Nat) :
    (along Q refl trans).Rel (Exec.readWord a) (Exec.readWord a) :=
  (along Q refl trans).bind (along_check _ _) fun _ =>
    along_get_bind fun _ => (along Q refl trans).pure _

theorem covers_along {p : Program} {o : Options} (h : ∀ s t, Machine.Changes ⟨p, o⟩ s t → Q s t) :
    (along Q refl trans).Covers p o o := by
  have perform (c : DrawCommand) :
      (along Q refl trans).Rel (Exec.perform c) (Exec.perform c) :=
    (along Q refl trans).bind ⟨rfl, fun s => h s _ (.perform c)⟩ fun _ => along_lift _
  refine
    { strict_eq := rfl
      addressOf := fun x hx => ⟨rfl, fun s => ?address⟩
      readWord := along_readWord
      readByte := fun _ => (along Q refl trans).bind (along_check _ _) fun _ =>
        along_get_bind fun _ => (along Q refl trans).pure _
      writeWord := fun a v => (along Q refl trans).bind (along_check _ _) fun _ =>
        along_modify fun s => h s _ (.setWord a _)
      writeByte := fun a v => (along Q refl trans).bind (along_check _ _) fun _ =>
        along_modify fun s => h s _ (.setByte a _)
      apply := fun _ _ _ _ => along_lift _
      write := fun text => ⟨rfl, fun s => ?write⟩
      draw := fun low high => ⟨rfl, fun s => h s _ (.draw low high)⟩
      perform := fun c _ => perform c
      createSprite := fun a w hh color _ => rel_createSprite _
        (fun _ _ => along_get_bind fun _ => along_lift _) perform a w hh color
      refuse := fun _ _ => along_throw _
      exit := along_throw _
      unfinished := along_throw _
      here := along_get_bind fun _ => (along Q refl trans).pure _
      jumpTo := fun i => along_modify fun s => h s _ (.jump i)
      record := fun line => along_modify fun s => h s _ (.record line)
      pushFrame := fun f loc => along_modify fun s => h s _ (.push f loc)
      popFrame := along_modify fun s => ?pop }
  case address =>
    cases hlookup : s.vars.lookup x with
    | some a =>
        rw [Exec.addressOf_of_some hlookup]
        exact refl s
    | none =>
        rw [Exec.addressOf_of_none hlookup]
        exact h s _ (.allocate hx hlookup)
  case write =>
    by_cases htakes : o.sink.Takes s.writes.size
    · rw [Exec.write_takes _ htakes]
      exact h s _ (.write text htakes)
    · cases hsink : o.sink with
      | steady => exact absurd (by rw [hsink]; trivial) htakes
      | failing limit failure =>
          rw [hsink] at htakes
          rw [Exec.write_refuses htakes]
          exact refl s
  case pop =>
    cases hcalls : s.calls with
    | nil => exact refl s
    | cons f rest => exact h s _ (.pop hcalls)

end Coupling

namespace Machine

variable (m : Machine)

/--
The state `t` comes after `s` in a run, possibly in the middle of an
instruction: when part of an expression has been evaluated, or while the
parameters of a call are saved, set or restored.  A run does not come through
all of these states.  It comes through others only in the middle of a call of a
built-in function, between two writes.
-/
inductive Leads : State → State → Prop
  | refl {s} : Leads s s
  | trans {s t u} : Leads s t → Leads t u → Leads s u
  | begun {s} : Leads s s.begun
  | visit {k s k' t} : m.Visits k s k' t → Leads s t
  | call {k s line n f args t} : m.Going k s line →
      Expr.CallsAll (m.caller n) line.instr.operands (s.recorded m.options.verbose line)
        f args t → Leads s t
  | eval {e n s} : m.program.Mentions e →
      Leads s (Exec.Result.state (e.eval (m.caller n) s))
  | readVar {x s} : x ∈ returnVariable :: m.program.vars →
      Leads s (Exec.Result.state (Exec.readVar x s))
  | writeVar {x v s} : x ∈ returnVariable :: m.program.vars →
      Leads s (Exec.Result.state (Exec.writeVar x v s))
  | halt {k n s h t} : m.loop k n s = .error h t → Leads s t
  | finish {s code} : Leads s (finish s code)

theorem leads_run (fuel : Nat) (s : State) : m.Leads s (m.run fuel s).2 := by
  rw [run_eq]
  cases h : m.loop .top fuel s.begun with
  | ok _ t =>
      exact .trans (.trans .begun (.visit (m.visits_of_loop_ok h))) .finish
  | error e t =>
      have ht : m.Leads s t := .trans .begun (.halt h)
      cases e with
      | fault f => exact ht
      | exit code => exact .trans ht .finish
      | unfinished => exact ht

end Machine

namespace Coupling.Covers

variable {Q : State → State → Prop} {refl : ∀ s, Q s s} {trans : ∀ s t u, Q s t → Q t u → Q s u}
  {p : Program} {o : Options}

section

variable (h : (Coupling.along Q refl trans).Covers p o o)

include h

theorem of_eval {n : Nat} {e : Expr} (he : p.Mentions e) (s : State) :
    Q s (Exec.Result.state (e.eval (Machine.caller ⟨p, o⟩ n) s)) :=
  (h.eval (h.caller n) he).2 s

theorem of_eval_ok {n : Nat} {e : Expr} (he : p.Mentions e) {s t : State} {v : Nat}
    (hv : e.eval (Machine.caller ⟨p, o⟩ n) s = .ok v t) : Q s t := by
  have := h.of_eval (n := n) he s
  rwa [hv] at this

theorem of_evalAll_ok {n : Nat} {es : List Expr} (hes : p.MentionsAll es) {s t : State}
    {vs : List Nat} (hvs : Expr.evalAll (Machine.caller ⟨p, o⟩ n) es s = .ok vs t) : Q s t := by
  have := (h.evalAll (h.caller n) hes).2 s
  rwa [hvs] at this

end

mutual

theorem of_calls (h : (Coupling.along Q refl trans).Covers p o o) {n : Nat} {e : Expr}
    (he : p.Mentions e) {s : State} {f : String} {args : List Nat} {t : State}
    (hc : e.Calls (Machine.caller ⟨p, o⟩ n) s f args t) : Q s t := by
  match hc with
  | .word hc => exact of_calls h he.word hc
  | .byte hc => exact of_calls h he.byte hc
  | .left hc => exact of_calls h he.left hc
  | .right hl hc => exact trans s _ t (h.of_eval_ok he.left hl) (of_calls h he.right hc)
  | .within hc => exact of_callsAll h he.args hc
  | .here hes => exact h.of_evalAll_ok he.args hes

theorem of_callsAll (h : (Coupling.along Q refl trans).Covers p o o) {n : Nat} {es : List Expr}
    (hes : p.MentionsAll es) {s : State} {f : String} {args : List Nat} {t : State}
    (hc : Expr.CallsAll (Machine.caller ⟨p, o⟩ n) es s f args t) : Q s t := by
  match hc with
  | .head hc => exact of_calls h hes.head hc
  | .tail he hc => exact trans s _ t (h.of_eval_ok hes.head he) (of_callsAll h hes.tail hc)

end

section

variable (h : (Coupling.along Q refl trans).Covers p o o)

include h

theorem of_recorded (s : State) (line : CodeLine) : Q s (s.recorded o.verbose line) :=
  (h.record line).2 s

theorem of_entered (s : State) (f : String) (loc : Option Location) (entry : Nat) :
    Q s (s.entered f loc entry) :=
  ((Coupling.along Q refl trans).bind (h.pushFrame f loc) fun _ => h.jumpTo entry).2 s

theorem of_enters {f : String} {args : List Nat} {s u : State}
    (hu : Machine.Enters ⟨p, o⟩ f args s u) : Q s u := by
  obtain ⟨entry, params, preserve, saved, t, hres, hprep, rfl⟩ := hu
  have ht : Q s t := by
    have := (h.prepare hres.params_subset preserve args).2 s
    rwa [hprep] at this
  exact trans s t _ ht (h.of_entered t _ _ _)

theorem of_visits {k k' : Loop} {s t : State} (hv : Machine.Visits ⟨p, o⟩ k s k' t) : Q s t := by
  induction hv with
  | here => exact refl _
  | @next k s line n u k' t _ hstep _ ih =>
      have hu := (h.step (h.caller n)).2 s
      rw [hstep] at hu
      exact trans s u t hu ih
  | @enter k s line n f args t u k' v hgo hcalls henter _ ih =>
      have ht := h.of_callsAll (Program.mentions_operands hgo.1) hcalls
      have hu := h.of_enters henter
      exact trans s _ v (h.of_recorded s line) (trans _ t v ht (trans t u v hu ih))

theorem loop (k : Loop) (n : Nat) (s : State) :
    Q s (Exec.Result.state (Machine.loop ⟨p, o⟩ k n s)) := by
  cases k with
  | top => exact (h.untilEnd n).2 s
  | body => exact (h.untilReturn n).2 s

theorem of_leads (hfinish : ∀ s code, Q s (Machine.finish s code)) {s t : State}
    (ht : Machine.Leads ⟨p, o⟩ s t) : Q s t := by
  induction ht with
  | refl => exact refl _
  | trans _ _ ih ih' => exact trans _ _ _ ih ih'
  | begun => exact h.of_entered _ _ _ _
  | visit hv => exact h.of_visits hv
  | @call k s line n f args t hgo hcalls =>
      exact trans s _ t (h.of_recorded s line)
        (h.of_callsAll (Program.mentions_operands hgo.1) hcalls)
  | eval he => exact h.of_eval he _
  | readVar hx => exact (h.readVar hx).2 _
  | writeVar hx => exact (h.writeVar hx _).2 _
  | @halt k n s e t hloop =>
      have := h.loop k n s
      rwa [hloop] at this
  | finish => exact hfinish _ _

end

end Coupling.Covers

end BrownLang
