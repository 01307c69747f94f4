import BrownLang.Proofs.Execution.Visit

/-!
# Where the entries of a journal come from

A journal keeps entries of instructions that were started, and each shows the
state in which its instruction was started.
-/

namespace BrownLang

theorem Evolution.bind {R : State → State → Prop} (hR : Evolution R) {α β : Type} {x : Exec α}
    {f : α → Exec β} {s : State} (hx : R s (Exec.Result.state (x s)))
    (hf : ∀ a t, x s = .ok a t → R t (Exec.Result.state (f a t))) :
    R s (Exec.Result.state ((x >>= f) s)) := by
  cases h : x s with
  | ok a t =>
      rw [h] at hx
      rw [Exec.bind_of_ok h]
      exact hR.trans hx (hf a t h)
  | error e t =>
      rw [h] at hx
      rw [Exec.bind_of_error h]
      exact hx

/-! ## Evaluation and the calls that are made -/

namespace Expr

variable {R : State → State → Prop} {call : Caller}

mutual

theorem eval_related (hR : Evolution R) (e : Expr) (s : State)
    (hcall : ∀ f args u, e.Calls call s f args u → R u (Exec.Result.state (call f args u))) :
    R s (Exec.Result.state (e.eval call s)) := by
  match e with
  | .lit n => exact hR.of_local (.pure n) s
  | .var x => exact hR.of_local (Exec.local_readVar x) s
  | .addr x => exact hR.of_local (Exec.local_addressOf x) s
  | .word a =>
      refine hR.bind (eval_related hR a s fun f args u hc => hcall f args u (.word hc)) ?_
      exact fun i t _ => hR.of_local (Exec.local_readWord i) t
  | .byte a =>
      refine hR.bind (eval_related hR a s fun f args u hc => hcall f args u (.byte hc)) ?_
      exact fun i t _ => hR.of_local (Exec.local_readByte i) t
  | .bin op l r =>
      refine hR.bind (eval_related hR l s fun f args u hc => hcall f args u (.left hc)) ?_
      intro a t hl
      refine hR.bind (eval_related hR r t fun f args u hc => hcall f args u (.right hl hc)) ?_
      exact fun b u _ => hR.of_local (.lift _) u
  | .call f es =>
      refine hR.bind (evalAll_related hR es s fun f args u hc => hcall f args u (.within hc)) ?_
      exact fun vs t hes => hcall f vs t (.here hes)

theorem evalAll_related (hR : Evolution R) (es : List Expr) (s : State)
    (hcall : ∀ f args u, CallsAll call es s f args u → R u (Exec.Result.state (call f args u))) :
    R s (Exec.Result.state (evalAll call es s)) := by
  match es with
  | [] => exact hR.of_local (.pure []) s
  | e :: es =>
      refine hR.bind (eval_related hR e s fun f args u hc => hcall f args u (.head hc)) ?_
      intro v t he
      refine hR.bind (evalAll_related hR es t fun f args u hc => hcall f args u (.tail he hc)) ?_
      exact fun vs u _ => hR.of_local (.pure _) u

end

end Expr

namespace Machine

variable {m : Machine}

theorem call_related {R : State → State → Prop} (hR : Evolution R)
    (hentered : ∀ s f loc entry, R s (s.entered f loc entry))
    (hreturned : ∀ s home, R s (s.returned home)) {body : Exec Unit} {f : String}
    {args : List Nat} {s : State}
    (hbody : ∀ u, m.Enters f args s u → R u (Exec.Result.state (body u))) :
    R s (Exec.Result.state (m.call body f args s)) := by
  rcases m.call_local_or_resolves f args with ⟨x, hx, heq⟩ | ⟨entry, params, preserve, hres⟩
  · rw [heq]
    exact hR.of_local hx s
  · rw [m.call_of_resolves hres, enter_eq]
    refine hR.bind (hR.of_local (local_prepare _ _ _) s) fun saved t hprep => ?_
    refine hR.bind (hentered t _ _ _) fun _ u henter => ?_
    injection henter with _ hu
    subst hu
    refine hR.bind (hbody _ ⟨entry, params, preserve, saved, t, hres, hprep, rfl⟩) fun _ w _ => ?_
    refine hR.bind (hR.of_local (local_conclude _ _ _) w) fun r v _ => ?_
    exact hR.bind (hreturned v _) fun _ v' _ => hR.refl v'

theorem Visits.trans {k k' k'' : Loop} {s t u : State} (h : m.Visits k s k' t)
    (h' : m.Visits k' t k'' u) : m.Visits k s k'' u := by
  induction h with
  | here => exact h'
  | next hgo hstep _ ih => exact .next hgo hstep (ih h')
  | enter hgo hcalls henter _ ih => exact .enter hgo hcalls henter (ih h')

end Machine

/-! ## Entries -/

def State.KeepsOnly (A : Entry → Prop) (s t : State) : Prop :=
  ∀ e ∈ t.journal.kept.latestFirst, e ∈ s.journal.kept.latestFirst ∨ A e

namespace State.KeepsOnly

variable {A : Entry → Prop}

theorem of_eq {s t : State} (h : t.journal.kept = s.journal.kept) : KeepsOnly A s t := by
  intro e he
  rw [h] at he
  exact .inl he

theorem mono {B : Entry → Prop} {s t : State} (h : KeepsOnly A s t) (hAB : ∀ e, A e → B e) :
    KeepsOnly B s t :=
  fun e he => (h e he).imp_right (hAB e)

theorem evolution : Evolution (KeepsOnly A) where
  trans h k e he := (k e he).elim (h e) .inr
  of_control_eq hc _ := of_eq (congrArg (fun c => c.journal.kept) hc)

theorem recorded {s : State} {verbose : Bool} {line : CodeLine} (h : A (s.entry verbose line)) :
    KeepsOnly A s (s.recorded verbose line) := by
  intro e he
  rw [State.recorded, Journal.add, Window.latestFirst_push] at he
  rcases List.mem_cons.mp (List.mem_of_mem_take he) with rfl | he
  · exact .inr h
  · exact .inl he

theorem returned (s : State) (home : Nat) : KeepsOnly A s (s.returned home) := by
  apply of_eq
  unfold State.returned
  split <;> rfl

end State.KeepsOnly

namespace Machine

variable {m : Machine}

theorem effect_keeps {A : Entry → Prop} (i : Instr) (vs : List Nat) (s : State) :
    State.KeepsOnly A s (Exec.Result.state (m.effect i vs s)) := by
  rcases m.effect_local_or_jump i vs with ⟨hlocal, -⟩ | ⟨l, heff, -⟩
  · exact State.KeepsOnly.evolution.of_local hlocal s
  · rw [heff]
    cases hj : m.jump l s with
    | ok _ t =>
        obtain ⟨k, -, rfl⟩ := m.jump_eq_ok.mp hj
        exact .of_eq rfl
    | error h t =>
        rw [m.jump_eq_error hj]
        exact .of_eq rfl

/-- The entry of an instruction that is started in a state that the loop `k` visits from `s`. -/
def EntryFrom (m : Machine) (k : Loop) (s : State) (e : Entry) : Prop :=
  ∃ k' t line, m.Visits k s k' t ∧ m.Going k' t line ∧ e = t.entry m.options.verbose line

theorem EntryFrom.of_visits {k k' : Loop} {s t : State} {e : Entry} (h : m.EntryFrom k' t e)
    (hv : m.Visits k s k' t) : m.EntryFrom k s e := by
  obtain ⟨k'', u, line, hu, hgo, rfl⟩ := h
  exact ⟨k'', u, line, hv.trans hu, hgo, rfl⟩

theorem loop_keeps (k : Loop) (n : Nat) (s : State) :
    State.KeepsOnly (m.EntryFrom k s) s (Exec.Result.state (m.loop k n s)) := by
  induction n generalizing k s with
  | zero =>
      rw [loop_zero]
      exact .of_eq rfl
  | succ n ih =>
      have hR : Evolution (State.KeepsOnly (m.EntryFrom k s)) := State.KeepsOnly.evolution
      by_cases hgo : ∃ line, m.Going k s line
      · obtain ⟨line, hgo⟩ := hgo
        have hcall : ∀ f args u,
            Expr.CallsAll (m.caller n) line.instr.operands (s.recorded m.options.verbose line)
              f args u →
            State.KeepsOnly (m.EntryFrom k s) u (Exec.Result.state (m.caller n f args u)) := by
          intro f args u hc
          apply call_related hR (fun _ _ _ _ => .of_eq rfl) State.KeepsOnly.returned
          intro v henter
          exact (ih .body v).mono fun e he => he.of_visits (.enter hgo hc henter .here)
        have hexec : State.KeepsOnly (m.EntryFrom k s) (s.recorded m.options.verbose line)
            (Exec.Result.state (m.execute (m.caller n) line.instr
              (s.recorded m.options.verbose line))) := by
          rw [execute_eq_effect]
          exact hR.bind (Expr.evalAll_related hR _ _ hcall) fun vs t _ => effect_keeps _ _ _
        have hstep : State.KeepsOnly (m.EntryFrom k s) s
            (Exec.Result.state (m.step (m.caller n) s)) := by
          rw [m.step_eq hgo.1]
          refine hR.trans (.recorded ⟨k, s, line, .here, hgo, rfl⟩) ?_
          exact hR.bind hexec fun _ t _ => .of_eq rfl
        rw [m.loop_succ_of_going hgo]
        refine hR.bind hstep fun _ t ht => ?_
        exact (ih k t).mono fun e he => he.of_visits (.next hgo ht .here)
      · rcases m.loop_succ_of_not_going (n := n) (fun line hl => hgo ⟨line, hl⟩) with
          ⟨hok, -⟩ | ⟨rfl, -, herror⟩
        · rw [hok]
          exact .of_eq rfl
        · rw [herror]
          exact .of_eq rfl

theorem kept_of_run (fuel : Nat) (canvas : Canvas) (generator : Generator) :
    ∀ e ∈ (m.run fuel (m.start canvas generator)).2.journal.kept.toList,
      m.EntryFrom .top (m.start canvas generator).begun e := by
  intro e he
  have hkeeps := loop_keeps (m := m) .top fuel (m.start canvas generator).begun
  have hjournal : (m.run fuel (m.start canvas generator)).2.journal =
      (Exec.Result.state (m.loop .top fuel (m.start canvas generator).begun)).journal := by
    rw [run_eq]
    cases m.loop .top fuel (m.start canvas generator).begun with
    | ok _ t => rfl
    | error h t => cases h <;> rfl
  rw [hjournal, Window.toList, List.mem_reverse] at he
  rcases hkeeps e he with hstart | hfrom
  · have hempty : (m.start canvas generator).begun.journal.kept.latestFirst = [] :=
      Window.latestFirst_empty _
    rw [hempty] at hstart
    exact nomatch hstart
  · exact hfrom

end Machine

end BrownLang
