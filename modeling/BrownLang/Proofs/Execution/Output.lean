import BrownLang.Proofs.Execution.Log
import BrownLang.Proofs.Execution.Transition

/-!
# Output devices

What a program does shows nothing of its output device, until the device
refuses a text.  Then the program halts, and nothing that was done up to there
is undone: what it does with a failing device is what it does with one that
takes everything, cut off in the middle of a call of a built-in function.
-/

namespace BrownLang

namespace Machine

def withSink (m : Machine) (sink : Sink) : Machine :=
  { m with options := { m.options with sink := sink } }

variable {m : Machine} {sink : Sink} {f : String} {args : List Nat}

theorem Resolves.withSink {entry : Nat} {params : List String} {preserve : Bool}
    (h : (m.withSink sink).Resolves f args entry params preserve) (sink' : Sink) :
    (m.withSink sink').Resolves f args entry params preserve :=
  ⟨h.not_builtin, h.label, h.head, h.count⟩

theorem Enters.withSink {s u : State} (h : (m.withSink sink).Enters f args s u) (sink' : Sink) :
    (m.withSink sink').Enters f args s u := by
  obtain ⟨entry, params, preserve, saved, t, hres, hprep, rfl⟩ := h
  exact ⟨entry, params, preserve, saved, t, hres.withSink sink', hprep, rfl⟩

end Machine

/-! ## What is written -/

namespace Builtin

def outputs : Builtin → List Nat → List String
  | println, args => if args.isEmpty then ["\n"] else args.map fun v => Text.decimal v ++ "\n"
  | print, args | puts, args => args.map Text.decimal
  | putc, [v] => (character? v).toList.map String.singleton
  | _, _ => []

/-- A function that is called in `s` has come to write `text` in `u`. -/
def Writes (b : Builtin) (args : List Nat) (s u : State) (text : String) : Prop :=
  checkCount b.name b.accepted args.length = .ok () ∧
    ∃ earlier later, b.outputs args = earlier ++ text :: later ∧
      u = { s with writes := s.writes ++ earlier.toArray }

theorem body_eq_of_not_mem {b : Builtin} (hb : b ∉ [println, print, puts, putc]) (args : List Nat)
    (sink sink' : Sink) : b.body sink args = b.body sink' args := by
  unfold body
  split
  case h_1 | h_2 | h_3 | h_4 => simp at hb
  all_goals rfl

theorem body_writes_or (b : Builtin) (args : List Nat) :
    (∀ sink, b.body sink args = do
      Exec.writeAll sink (b.outputs args)
      pure 0) ∨
    b.outputs args = [] ∧ ∀ sink sink', b.body sink args = b.body sink' args := by
  cases b with
  | println | print | puts => exact .inl fun _ => rfl
  | putc =>
      match args with
      | [] | _ :: _ :: _ => exact .inr ⟨rfl, fun _ _ => rfl⟩
      | [v] =>
          cases hv : character? v with
          | some c => exact .inl fun sink => by simp [body, outputs, hv, Exec.writeAll]
          | none => exact .inr ⟨by simp [outputs, hv], fun _ _ => by simp [body, hv]⟩
  | _ => exact .inr ⟨rfl, body_eq_of_not_mem (by decide) args⟩

end Builtin

/-- The loop `k`, which begins in `s`, has come to write `text` in `u`. -/
inductive Machine.Writes (m : Machine) (k : Loop) (s : State) : State → String → Prop
  | intro {k' t line fuel f args v b u text} :
      m.Visits k s k' t → m.Going k' t line →
      Expr.CallsAll (m.caller fuel) line.instr.operands (t.recorded m.options.verbose line)
        f args v →
      Builtin.ofName? f = some b → b.Writes args v u text → Writes m k s u text

theorem Machine.Writes.of_visits {m : Machine} {k k' : Loop} {s t u : State} {text : String}
    (h : m.Writes k' t u text) (hv : m.Visits k s k' t) : m.Writes k s u text := by
  cases h with
  | intro ht hgo hcalls hb hw => exact .intro (hv.trans ht) hgo hcalls hb hw

/-! ## Actions that write nothing -/

def Coupling.silence : Coupling :=
  .along (fun s t => t.writes = s.writes ∧ t.exitCode = s.exitCode) (fun _ => ⟨rfl, rfl⟩)
    fun _ _ _ h k => ⟨k.1.trans h.1, k.2.trans h.2⟩

theorem Machine.covers_silence (m : Machine) (failure : SinkFailure) :
    Coupling.silence.Covers m.program (m.withSink (.failing 0 failure)).options
      (m.withSink (.failing 0 failure)).options := by
  refine Coupling.covers_along fun s t h => ?_
  cases h with
  | write text htakes => exact absurd htakes (Nat.not_lt_zero _)
  | _ => exact ⟨rfl, rfl⟩

/-! ## Results with a device that fails -/

namespace Exec

variable {α β : Type} {n : Nat} {h : Halt} {W W' : State → String → Prop} {s : State}

/--
The result `r` of an action that begins in `s` becomes `r'` if the device takes
`n` texts and then halts the program with `h`: it stays the same, or the action
is cut off in a state in which, by `W`, it has come to write a text.
-/
structure Follows (n : Nat) (h : Halt) (W : State → String → Prop) (s : State)
    (r r' : EStateM.Result Halt State α) : Prop where
  kept : s.writes.toList <+: (Result.state r).writes.toList
  exitCode : (Result.state r).exitCode = s.exitCode
  cut : s.writes.size ≤ n →
    r' = r ∧ (Result.state r).writes.size ≤ n ∨
      ∃ u text, W u text ∧ r' = .error h u ∧ u.writes.size = n ∧ u.exitCode = s.exitCode ∧
        u.writes.toList ++ [text] <+: (Result.state r).writes.toList

theorem Follows.mono {r r' : EStateM.Result Halt State α} (hr : Follows n h W s r r')
    (hW : ∀ u text, W u text → W' u text) : Follows n h W' s r r' where
  kept := hr.kept
  exitCode := hr.exitCode
  cut hn := (hr.cut hn).imp_right fun ⟨u, text, hu, hrest⟩ => ⟨u, text, hW u text hu, hrest⟩

theorem Follows.of_silent {x : Exec α} (hx : Coupling.silence.Rel x x) (s : State) :
    Follows n h W s (x s) (x s) := by
  obtain ⟨hwrites, hexit⟩ := hx.2 s
  exact ⟨by simp [hwrites], hexit, fun hn => .inl ⟨rfl, by rwa [hwrites]⟩⟩

theorem Follows.of_start {t : State} {r r' : EStateM.Result Halt State α}
    (hr : Follows n h W t r r') (hwrites : t.writes = s.writes) (hexit : t.exitCode = s.exitCode) :
    Follows n h W s r r' := by
  obtain ⟨hkept, hcode, hcut⟩ := hr
  rw [hwrites] at hkept hcut
  rw [hexit] at hcode hcut
  exact ⟨hkept, hcode, hcut⟩

theorem Follows.bind {x y : Exec α} {f g : α → Exec β} (hx : Follows n h W s (x s) (y s))
    (hf : ∀ a t, x s = .ok a t → Follows n h W t (f a t) (g a t)) :
    Follows n h W s ((x >>= f) s) ((y >>= g) s) := by
  cases hr : x s with
  | error e t =>
      rw [hr] at hx
      rw [bind_of_error hr]
      refine ⟨hx.kept, hx.exitCode, fun hn => ?_⟩
      rcases hx.cut hn with ⟨hy, hsize⟩ | ⟨u, text, hu, hy, hrest⟩
      · exact .inl ⟨bind_of_error hy, hsize⟩
      · exact .inr ⟨u, text, hu, bind_of_error hy, hrest⟩
  | ok a t =>
      have hfa := hf a t hr
      rw [hr] at hx
      rw [bind_of_ok hr]
      refine ⟨hx.kept.trans hfa.kept, hfa.exitCode.trans hx.exitCode, fun hn => ?_⟩
      rcases hx.cut hn with ⟨hy, hsize⟩ | ⟨u, text, hu, hy, hsize, hexit, hprefix⟩
      · rw [bind_of_ok hy]
        refine (hfa.cut hsize).imp_right ?_
        rintro ⟨u, text, hu, hg, hsize, hexit, hprefix⟩
        exact ⟨u, text, hu, hg, hsize, hexit.trans hx.exitCode, hprefix⟩
      · exact .inr ⟨u, text, hu, bind_of_error hy, hsize, hexit, hprefix.trans hfa.kept⟩

/-! ## Built-in functions -/

theorem write_follows (failure : SinkFailure) (text : String) (s : State) :
    Follows n (.fault failure.fault) (fun u x => u = s ∧ x = text) s (write .steady text s)
      (write (.failing n failure) text s) := by
  rw [write_takes .steady trivial]
  refine ⟨by simp [Result.state], rfl, fun hn => ?_⟩
  by_cases hlt : s.writes.size < n
  · rw [write_takes (.failing n failure) hlt]
    exact .inl ⟨rfl, by simpa [Result.state] using Nat.succ_le_of_lt hlt⟩
  · rw [write_refuses hlt]
    exact .inr ⟨s, text, ⟨rfl, rfl⟩, rfl, by omega, rfl, by simp [Result.state]⟩

theorem writeAll_follows (failure : SinkFailure) (texts : List String) (s : State) :
    Follows n (.fault failure.fault)
      (fun u text => ∃ earlier later, texts = earlier ++ text :: later ∧
        u = { s with writes := s.writes ++ earlier.toArray })
      s (writeAll .steady texts s) (writeAll (.failing n failure) texts s) := by
  induction texts generalizing s with
  | nil => exact .of_silent (Coupling.silence.pure ()) s
  | cons t ts ih =>
      refine .bind ((write_follows failure t s).mono ?_) fun _ u hu => (ih u).mono ?_
      · rintro _ _ ⟨rfl, rfl⟩
        exact ⟨[], ts, rfl, by simp⟩
      · rw [write_takes .steady trivial] at hu
        injection hu with _ hu
        subst hu
        rintro v text ⟨earlier, later, rfl, rfl⟩
        exact ⟨t :: earlier, later, rfl, by simp⟩

end Exec

open Exec (Follows)

namespace Machine

variable (m : Machine) {n : Nat} (failure : SinkFailure)

include m in
theorem invoke_follows (b : Builtin) (args : List Nat) (s : State) :
    Follows n (.fault failure.fault) (b.Writes args s) s (b.invoke .steady args s)
      (b.invoke (.failing n failure) args s) := by
  cases hcount : Builtin.checkCount b.name b.accepted args.length with
  | error f =>
      rw [Builtin.invoke, Builtin.invoke, hcount]
      exact .of_silent (Coupling.along_throw (.fault f)) s
  | ok _ =>
      have hbody (sink : Sink) : b.invoke sink args = b.body sink args := by
        rw [Builtin.invoke, hcount]
        rfl
      rw [hbody, hbody]
      rcases b.body_writes_or args with hwrites | ⟨-, hsame⟩
      · rw [hwrites, hwrites]
        refine .bind ((Exec.writeAll_follows failure _ s).mono ?_) fun _ t _ =>
          .of_silent (Coupling.silence.pure 0) t
        exact fun u text hu => ⟨hcount, hu⟩
      · rw [hsame .steady (.failing 0 failure), hsame (.failing n failure) (.failing 0 failure)]
        exact .of_silent ((m.covers_silence failure).body b args) s

end Machine

/-! ## Expressions and the calls in them -/

section

variable {m : Machine} {n : Nat} {h : Halt} {W : State → String → Prop} {call call' : Caller}

mutual

theorem Expr.eval_follows {e : Expr} (he : m.program.Mentions e) (s : State)
    (hcall : ∀ f args u, e.Calls call s f args u → Follows n h W u (call f args u) (call' f args u)) :
    Follows n h W s (e.eval call s) (e.eval call' s) := by
  have hsilent := m.covers_silence (.other "")
  match e with
  | .lit v => exact .of_silent (Coupling.silence.pure v) s
  | .var x =>
      exact .of_silent (hsilent.readVar (List.mem_cons_of_mem _ (he.vars (.head _)))) s
  | .addr x =>
      exact .of_silent (hsilent.addressOf x (List.mem_cons_of_mem _ (he.vars (.head _)))) s
  | .word a =>
      refine .bind (a.eval_follows he.word s fun f args u hc => hcall f args u (.word hc)) ?_
      exact fun i t _ => .of_silent (hsilent.readWord i) t
  | .byte a =>
      refine .bind (a.eval_follows he.byte s fun f args u hc => hcall f args u (.byte hc)) ?_
      exact fun i t _ => .of_silent (hsilent.readByte i) t
  | .bin op l r =>
      refine .bind (l.eval_follows he.left s fun f args u hc => hcall f args u (.left hc)) ?_
      intro a t hl
      refine .bind (r.eval_follows he.right t fun f args u hc => hcall f args u (.right hl hc)) ?_
      exact fun b u _ => .of_silent (Coupling.along_lift _) u
  | .call f es =>
      refine .bind (Expr.evalAll_follows he.args s fun f args u hc => hcall f args u (.within hc)) ?_
      exact fun vs t hes => hcall f vs t (.here hes)

theorem Expr.evalAll_follows {es : List Expr} (hes : m.program.MentionsAll es) (s : State)
    (hcall : ∀ f args u, CallsAll call es s f args u →
      Follows n h W u (call f args u) (call' f args u)) :
    Follows n h W s (evalAll call es s) (evalAll call' es s) := by
  match es with
  | [] => exact .of_silent (Coupling.silence.pure []) s
  | e :: es =>
      refine .bind (e.eval_follows hes.head s fun f args u hc => hcall f args u (.head hc)) ?_
      intro v t he
      refine .bind (Expr.evalAll_follows hes.tail t fun f args u hc =>
        hcall f args u (.tail he hc)) ?_
      exact fun vs u _ => .of_silent (Coupling.silence.pure _) u

end

end

namespace Machine

variable (m : Machine) {n : Nat} (failure : SinkFailure) {W : State → String → Prop}

theorem call_follows {body body' : Exec Unit} {f : String} {args : List Nat} {s : State}
    (hbuiltin : ∀ b u text, Builtin.ofName? f = some b → b.Writes args s u text → W u text)
    (hbody : ∀ u, (m.withSink .steady).Enters f args s u →
      Follows n (.fault failure.fault) W u (body u) (body' u)) :
    Follows n (.fault failure.fault) W s ((m.withSink .steady).call body f args s)
      ((m.withSink (.failing n failure)).call body' f args s) := by
  have hsilent := m.covers_silence failure
  cases hb : Builtin.ofName? f with
  | some b =>
      simp only [call, hb]
      exact (m.invoke_follows failure b args s).mono fun u text => hbuiltin b u text hb
  | none =>
      rcases (m.withSink .steady).call_fails_or_resolves hb args with
        ⟨fault, hfails⟩ | ⟨entry, params, preserve, hres⟩
      · have hfails' : (m.withSink (.failing n failure)).call body' f args = Exec.fail fault := by
          rw [← hfails body']
          simp only [call, hb]
          rfl
        rw [hfails, hfails']
        exact .of_silent (Coupling.along_throw _) s
      · have hparams : params ⊆ returnVariable :: m.program.vars := hres.params_subset
        have hentered : Coupling.silence.Rel
            (modify fun t => t.entered f (m.locAt s.ip) entry : Exec Unit)
            (modify fun t => t.entered f (m.locAt s.ip) entry) :=
          Coupling.along_modify fun _ => ⟨rfl, rfl⟩
        rw [call_of_resolves _ hres, call_of_resolves _ (hres.withSink (.failing n failure)), enter_eq,
          enter_eq]
        refine .bind (.of_silent (hsilent.prepare hparams preserve args) s) fun saved t hprep => ?_
        refine .bind (.of_silent hentered t) fun _ u henter => ?_
        injection henter with _ hu
        subst hu
        refine .bind (hbody _ ⟨entry, params, preserve, saved, t, hres, hprep, rfl⟩) fun _ w _ => ?_
        refine .bind (.of_silent (hsilent.conclude hparams preserve saved) w) fun r v _ => ?_
        refine .bind (.of_silent (Coupling.along_modify fun x => ?_) v) fun _ x _ =>
          .of_silent (Coupling.silence.pure r) x
        unfold State.returned
        split <;> exact ⟨rfl, rfl⟩

theorem step_follows {h : Halt} {call call' : Caller} {s : State} {line : CodeLine}
    (hline : m.program.code[s.ip]? = some line)
    (hcall : ∀ f args u,
      Expr.CallsAll call line.instr.operands (s.recorded m.options.verbose line) f args u →
      Follows n h W u (call f args u) (call' f args u)) :
    Follows n h W s ((m.withSink .steady).step call s)
      ((m.withSink (.failing n failure)).step call' s) := by
  have hline' : (m.withSink .steady).program.code[s.ip]? = some line := hline
  have hline'' : (m.withSink (.failing n failure)).program.code[s.ip]? = some line := hline
  have heffect (vs : List Nat) := (m.covers_silence failure).effect hline vs
  rw [step_eq _ hline', step_eq _ hline'', execute_eq_effect, execute_eq_effect]
  have hops := Expr.evalAll_follows (Program.mentions_operands hline) _ hcall
  have hexec := hops.bind fun vs t _ => .of_silent (heffect vs) t
  refine (hexec.bind fun _ t _ => ?_).of_start rfl rfl
  refine .of_silent (Coupling.along_modify ?_) t
  exact fun _ => ⟨rfl, rfl⟩

theorem loop_follows (k : Loop) (fuel : Nat) (s : State) :
    Follows n (.fault failure.fault) ((m.withSink .steady).Writes k s) s
      ((m.withSink .steady).loop k fuel s) ((m.withSink (.failing n failure)).loop k fuel s) := by
  induction fuel generalizing k s with
  | zero =>
      rw [loop_zero, loop_zero]
      exact .of_silent (Coupling.along_throw _) s
  | succ fuel ih =>
      by_cases hgo : ∃ line, (m.withSink .steady).Going k s line
      · obtain ⟨line, hgo⟩ := hgo
        have hgo' : (m.withSink (.failing n failure)).Going k s line := hgo
        have hcall : ∀ f args u,
            Expr.CallsAll ((m.withSink .steady).caller fuel) line.instr.operands
              (s.recorded m.options.verbose line) f args u →
            Follows n (.fault failure.fault) ((m.withSink .steady).Writes k s) u
              ((m.withSink .steady).caller fuel f args u)
              ((m.withSink (.failing n failure)).caller fuel f args u) := by
          intro f args u hc
          refine m.call_follows failure (fun b v text hb hw => .intro .here hgo hc hb hw) ?_
          intro v henter
          exact (ih .body v).mono fun w text hw => hw.of_visits (.enter hgo hc henter .here)
        have hstep := m.step_follows failure hgo.1 hcall
        rw [loop_succ_of_going _ hgo, loop_succ_of_going _ hgo']
        exact hstep.bind fun _ t ht => (ih k t).mono fun u text hu =>
          hu.of_visits (.next hgo ht .here)
      · have hgo' : ∀ line, ¬ m.Going k s line := fun line hl => hgo ⟨line, hl⟩
        have hoff : m.program.code.size ≤ s.ip → m.instrAt s.ip ≠ some .funReturn :=
          fun hge h => by simp [instrAt, Array.getElem?_eq_none hge] at h
        rcases (m.withSink .steady).loop_succ_of_not_going (n := fuel) hgo' with
            ⟨hok, hreturn⟩ | ⟨hbody, hge, herror⟩ <;>
          rcases (m.withSink (.failing n failure)).loop_succ_of_not_going (n := fuel) hgo' with
            ⟨hok', hreturn'⟩ | ⟨hbody', hge', herror'⟩
        · rw [hok, hok']
          exact .of_silent (Coupling.silence.pure ()) s
        · exact absurd (hreturn hbody') (hoff hge')
        · exact absurd (hreturn' hbody) (hoff hge)
        · rw [herror, herror']
          exact .of_silent (Coupling.along_throw _) s

end Machine

end BrownLang
