import BrownLang.Proofs.Execution.Fuel
import BrownLang.Proofs.Execution.Output

/-!
# Runs that are cut off

An output device that fails ends the run at the first text that it does not
take, in the one state in which a run with a device that never fails comes to
write that text.
-/

namespace BrownLang

def SinkFailure.ReportedAs : SinkFailure → Fault → Prop
  | .system reason, f => f.title = "SystemFault" ∧ f.message = "Failed to write output: " ++ reason
  | .other reason, f => f.title = "BrownRuntimeError" ∧ f.rule = "internal" ∧
      f.message = "Internal interpreter error: " ++ reason

theorem SinkFailure.reportedAs_fault (failure : SinkFailure) : failure.ReportedAs failure.fault := by
  cases failure with
  | system reason => exact ⟨rfl, rfl⟩
  | other reason => exact ⟨rfl, rfl, rfl⟩

open Exec (Follows)

/-! ## What ends well with few texts -/

theorem Exec.Follows.of_ok {α : Type} {n : Nat} {h : Halt} {W : State → String → Prop}
    {s t : State} {a : α} {x x' y : Exec α} (hfollows : Follows n h W s (x' s) (y s))
    (hmore : Coupling.completing.Rel x x') (hx : x s = .ok a t) :
    s.writes.size ≤ t.writes.size ∧ (t.writes.size ≤ n → y s = .ok a t) := by
  rw [Coupling.completing_ok hmore hx] at hfollows
  have hle : s.writes.size ≤ t.writes.size := hfollows.kept.length_le
  refine ⟨hle, fun hn => ?_⟩
  rcases hfollows.cut (Nat.le_trans hle hn) with ⟨hsame, -⟩ | ⟨u, text, -, -, hsize, -, hprefix⟩
  · exact hsame
  · have hlen : u.writes.size + 1 ≤ t.writes.size := by
      simpa [Exec.Result.state] using hprefix.length_le
    omega

namespace Machine

variable (m : Machine) {n : Nat} (failure : SinkFailure) {fuel fuel' : Nat} (hle : fuel ≤ fuel')
  {s t : State}

theorem caller_follows (fuel : Nat) (f : String) (args : List Nat) (s : State) :
    Follows n (.fault failure.fault) (fun _ _ => True) s
      ((m.withSink .steady).caller fuel f args s)
      ((m.withSink (.failing n failure)).caller fuel f args s) := by
  refine m.call_follows failure (fun _ _ _ _ _ => trivial) fun u _ => ?_
  exact (m.loop_follows failure .body fuel u).mono fun _ _ _ => trivial

include hle

theorem eval_of_ok {e : Expr} (he : m.program.Mentions e) {v : Nat}
    (h : e.eval ((m.withSink .steady).caller fuel) s = .ok v t) :
    s.writes.size ≤ t.writes.size ∧ (t.writes.size ≤ n →
      e.eval ((m.withSink (.failing n failure)).caller fuel') s = .ok v t) := by
  have hcovers := (m.withSink .steady).covers_completing
  have hfollows := Expr.eval_follows (n := n) he s fun f args u _ =>
    m.caller_follows failure fuel' f args u
  exact hfollows.of_ok (hcovers.eval ((m.withSink .steady).caller_completing hle) he) h

theorem evalAll_of_ok {es : List Expr} (hes : m.program.MentionsAll es) {vs : List Nat}
    (h : Expr.evalAll ((m.withSink .steady).caller fuel) es s = .ok vs t) :
    s.writes.size ≤ t.writes.size ∧ (t.writes.size ≤ n →
      Expr.evalAll ((m.withSink (.failing n failure)).caller fuel') es s = .ok vs t) := by
  have hcovers := (m.withSink .steady).covers_completing
  have hfollows := Expr.evalAll_follows (n := n) hes s fun f args u _ =>
    m.caller_follows failure fuel' f args u
  exact hfollows.of_ok (hcovers.evalAll ((m.withSink .steady).caller_completing hle) hes) h

theorem step_of_ok {line : CodeLine} (hline : m.program.code[s.ip]? = some line)
    (h : (m.withSink .steady).step ((m.withSink .steady).caller fuel) s = .ok () t) :
    s.writes.size ≤ t.writes.size ∧ (t.writes.size ≤ n →
      (m.withSink (.failing n failure)).step ((m.withSink (.failing n failure)).caller fuel') s =
        .ok () t) := by
  have hcovers := (m.withSink .steady).covers_completing
  have hfollows := m.step_follows (n := n) failure hline fun f args u _ =>
    m.caller_follows failure fuel' f args u
  exact hfollows.of_ok (hcovers.step ((m.withSink .steady).caller_completing hle)) h

end Machine

/-! ## Where the device fails -/

theorem Exec.writeAll_cut (failure : SinkFailure) {n : Nat} (earlier later : List String)
    (text : String) {s : State} (hn : s.writes.size + earlier.length = n) :
    writeAll (.failing n failure) (earlier ++ text :: later) s =
      .error (.fault failure.fault) { s with writes := s.writes ++ earlier.toArray } := by
  induction earlier generalizing s with
  | nil =>
      have hfull : ¬ s.writes.size < n := Nat.not_lt.mpr (Nat.le_of_eq hn.symm)
      rw [List.nil_append, writeAll, bind_of_error (write_refuses hfull text)]
      simp
  | cons t ts ih =>
      rw [List.length_cons] at hn
      have hroom : (Sink.failing n failure).Takes s.writes.size := by
        change s.writes.size < n
        omega
      rw [List.cons_append, writeAll, bind_of_ok (write_takes _ hroom t), ih]
      · simp
      · rw [Array.size_push]
        omega

theorem Builtin.Writes.cut (failure : SinkFailure) {n : Nat} {b : Builtin} {args : List Nat}
    {s u : State} {text : String} (h : b.Writes args s u text) (hn : u.writes.size = n) :
    s.writes.size ≤ n ∧
      b.invoke (.failing n failure) args s = .error (.fault failure.fault) u := by
  obtain ⟨hcount, earlier, later, houtputs, rfl⟩ := h
  have hsize : s.writes.size + earlier.length = n := by
    simpa using hn
  refine ⟨by omega, ?_⟩
  rcases b.body_writes_or args with hwrites | ⟨hnone, -⟩
  · have hinvoke : b.invoke (.failing n failure) args = b.body (.failing n failure) args := by
      rw [invoke, hcount]
      rfl
    rw [hinvoke, hwrites, houtputs]
    exact Exec.bind_of_error (Exec.writeAll_cut failure earlier later text hsize)
  · rw [hnone] at houtputs
    exact absurd houtputs.symm (by simp)

section

variable {m : Machine} {n : Nat} {failure : SinkFailure} {fuel fuel' : Nat} {h : Halt}
  {v u : State} {f : String} {args : List Nat}

mutual

theorem Expr.Calls.cut {e : Expr} {s : State}
    (hc : e.Calls ((m.withSink .steady).caller fuel) s f args v)
    (hle : fuel ≤ fuel') (he : m.program.Mentions e) (hv : v.writes.size ≤ n)
    (hcut : (m.withSink (.failing n failure)).caller fuel' f args v = .error h u) :
    s.writes.size ≤ v.writes.size ∧
      e.eval ((m.withSink (.failing n failure)).caller fuel') s = .error h u := by
  match hc with
  | .word hc =>
      obtain ⟨hs, heval⟩ := hc.cut hle he.word hv hcut
      exact ⟨hs, Exec.bind_of_error heval⟩
  | .byte hc =>
      obtain ⟨hs, heval⟩ := hc.cut hle he.byte hv hcut
      exact ⟨hs, Exec.bind_of_error heval⟩
  | .left hc =>
      obtain ⟨hs, heval⟩ := hc.cut hle he.left hv hcut
      exact ⟨hs, Exec.bind_of_error heval⟩
  | .right hl hc =>
      obtain ⟨hs, heval⟩ := hc.cut hle he.right hv hcut
      obtain ⟨hs', hleft⟩ := m.eval_of_ok failure hle he.left hl
      refine ⟨Nat.le_trans hs' hs, ?_⟩
      exact (Exec.bind_of_ok (hleft (Nat.le_trans hs hv))).trans (Exec.bind_of_error heval)
  | .within hc =>
      obtain ⟨hs, heval⟩ := hc.cut hle he.args hv hcut
      exact ⟨hs, Exec.bind_of_error heval⟩
  | .here hes =>
      obtain ⟨hs, hargs⟩ := m.evalAll_of_ok failure hle he.args hes
      exact ⟨hs, (Exec.bind_of_ok (hargs hv)).trans hcut⟩

theorem Expr.CallsAll.cut {es : List Expr} {s : State}
    (hc : CallsAll ((m.withSink .steady).caller fuel) es s f args v)
    (hle : fuel ≤ fuel') (hes : m.program.MentionsAll es) (hv : v.writes.size ≤ n)
    (hcut : (m.withSink (.failing n failure)).caller fuel' f args v = .error h u) :
    s.writes.size ≤ v.writes.size ∧
      evalAll ((m.withSink (.failing n failure)).caller fuel') es s = .error h u := by
  match hc with
  | .head hc =>
      obtain ⟨hs, heval⟩ := hc.cut hle hes.head hv hcut
      exact ⟨hs, Exec.bind_of_error heval⟩
  | .tail he hc =>
      obtain ⟨hs, heval⟩ := hc.cut hle hes.tail hv hcut
      obtain ⟨hs', hhead⟩ := m.eval_of_ok failure hle hes.head he
      refine ⟨Nat.le_trans hs' hs, ?_⟩
      exact (Exec.bind_of_ok (hhead (Nat.le_trans hs hv))).trans (Exec.bind_of_error heval)

end

end

namespace Machine

variable {m : Machine} {failure : SinkFailure} {n : Nat} {s v u : State} {f : String}
  {args : List Nat} {h : Halt}

theorem builtin_cut (failure : SinkFailure) {b : Builtin} {text : String}
    (hb : Builtin.ofName? f = some b) (hw : b.Writes args s u text) (hn : u.writes.size = n) :
    s.writes.size ≤ n ∧ ∀ fuel,
      (m.withSink (.failing n failure)).caller fuel f args s =
        .error (.fault failure.fault) u := by
  obtain ⟨hs, hinvoke⟩ := hw.cut failure hn
  refine ⟨hs, fun fuel => ?_⟩
  simp only [caller, call, hb]
  exact hinvoke

theorem Enters.cut {body : Exec Unit} (henter : (m.withSink .steady).Enters f args s v)
    (hbody : body v = .error h u) :
    s.writes.size = v.writes.size ∧
      (m.withSink (.failing n failure)).call body f args s = .error h u := by
  have hsilent := (m.covers_silence failure).of_enters (henter.withSink _)
  refine ⟨congrArg Array.size hsilent.1.symm, ?_⟩
  obtain ⟨entry, params, preserve, saved, t, hres, hprep, rfl⟩ :=
    henter.withSink (.failing n failure)
  rw [call_of_resolves _ hres, enter_eq, Exec.bind_of_ok hprep]
  exact (Exec.bind_of_ok rfl).trans (Exec.bind_of_error hbody)

theorem loop_cut {k : Loop} {line : CodeLine} {fuel fuel' : Nat} (hgo : m.Going k s line)
    (hle : fuel ≤ fuel')
    (hc : Expr.CallsAll ((m.withSink .steady).caller fuel) line.instr.operands
      (s.recorded m.options.verbose line) f args v) (hv : v.writes.size ≤ n)
    (hcut : (m.withSink (.failing n failure)).caller fuel' f args v = .error h u) :
    s.writes.size ≤ n ∧
      (m.withSink (.failing n failure)).loop k (fuel' + 1) s = .error h u := by
  have hgo' : (m.withSink (.failing n failure)).Going k s line := hgo
  obtain ⟨hs, hops⟩ := hc.cut hle (Program.mentions_operands hgo.1) hv hcut
  refine ⟨Nat.le_trans hs hv, ?_⟩
  rw [loop_succ_of_going _ hgo']
  refine Exec.bind_of_error ?_
  rw [step_eq _ hgo'.1, execute_eq_effect]
  exact Exec.bind_of_error (Exec.bind_of_error hops)

theorem Writes.cut (failure : SinkFailure) {k : Loop} {text : String}
    (hw : (m.withSink .steady).Writes k s u text) (hn : u.writes.size = n) :
    s.writes.size ≤ n ∧ ∃ fuel,
      (m.withSink (.failing n failure)).loop k fuel s = .error (.fault failure.fault) u := by
  obtain ⟨hvisit, hgo, hcalls, hb, hbuiltin⟩ := hw
  obtain ⟨hv, hcut⟩ := builtin_cut (m := m) failure hb hbuiltin hn
  induction hvisit with
  | here =>
      obtain ⟨hs, hloop⟩ := loop_cut hgo (Nat.le_refl _) hcalls hv (hcut _)
      exact ⟨hs, _, hloop⟩
  | @next k s line' fuel' t' _ _ hgo' hstep _ ih =>
      obtain ⟨ht, fuel'', hloop⟩ := ih hgo hcalls
      have hgo'' : (m.withSink (.failing n failure)).Going k s line' := hgo'
      obtain ⟨hs, hstep'⟩ :=
        m.step_of_ok (n := n) failure (Nat.le_max_left fuel' fuel'') hgo'.1 hstep
      refine ⟨Nat.le_trans hs ht, max fuel' fuel'' + 1, ?_⟩
      rw [loop_succ_of_going _ hgo'']
      exact (Exec.bind_of_ok (hstep' ht)).trans (loop_fault_of_le _ (Nat.le_max_right _ _) hloop)
  | @enter k s line' fuel' g args' t' u' _ _ hgo' hcalls' henter _ ih =>
      obtain ⟨hu, fuel'', hloop⟩ := ih hgo hcalls
      have hbody := loop_fault_of_le _ (Nat.le_max_right fuel' fuel'') hloop
      obtain ⟨ht, hcall⟩ := henter.cut hbody
      obtain ⟨hs, hloop'⟩ :=
        loop_cut hgo' (Nat.le_max_left fuel' fuel'') hcalls' (ht ▸ hu) hcall
      exact ⟨hs, _, hloop'⟩

/-! ## Whole runs -/

variable (m) (failure)

/--
A run with a device that fails after `n` texts is the run with a device that
never fails, if that has no more than `n` texts.  If it has more, whether it
ends or not, the run with the failing device ends, with the fault that the
device causes, in the state in which the other one came to write the text
after the first `n`.
-/
theorem failing_device_cuts_run (canvas : Canvas) (generator : Generator) (n fuel : Nat) :
    let whole := m.withSink .steady
    let cut := m.withSink (.failing n failure)
    let s := m.start canvas generator
    let written := (whole.run fuel s).2.writes.toList
    failure.ReportedAs failure.fault ∧
    (written.length ≤ n → cut.run fuel s = whole.run fuel s) ∧
    (n < written.length → ∃ u text,
      whole.Writes .top s.begun u text ∧
      (∀ u' text', whole.Writes .top s.begun u' text' → u'.writes.size = n → u' = u) ∧
      u.writes.toList = written.take n ∧ written[n]? = some text ∧ u.exitCode = none ∧
      ∀ fuel' ≥ fuel, cut.run fuel' s = (.crashed (crashAt u failure.fault), u)) := by
  intro whole cut s written
  have hwritten : written =
      (Exec.Result.state (whole.loop .top fuel s.begun)).writes.toList := by
    simp only [written, run_eq]
    cases whole.loop .top fuel s.begun with
    | ok _ t => rfl
    | error h t => cases h <;> rfl
  have hcut := (m.loop_follows failure .top fuel s.begun).cut (Nat.zero_le n)
  refine ⟨failure.reportedAs_fault, ?_⟩
  rcases hcut with ⟨hsame, hsize⟩ | ⟨u, text, hu, hloop, hsize, hexit, hprefix⟩
  · rw [← Array.length_toList, ← hwritten] at hsize
    refine ⟨fun _ => ?_, fun hlt => absurd hlt (Nat.not_lt.mpr hsize)⟩
    rw [run_eq, run_eq, hsame]
  · have honly : ∀ u' text', whole.Writes .top s.begun u' text' → u'.writes.size = n → u' = u := by
      intro u' text' hu' hsize'
      obtain ⟨-, fuel', hloop'⟩ := hu'.cut failure hsize'
      have hends := cut.loop_fault_of_le (Nat.le_max_left fuel fuel') hloop
      have hends' := cut.loop_fault_of_le (Nat.le_max_right fuel fuel') hloop'
      injection hends'.symm.trans hends
    rw [← hwritten] at hprefix
    rw [← Array.length_toList] at hsize
    obtain ⟨later, hlater⟩ := hprefix
    have hlt : n < written.length := by
      simp [← hlater, hsize]
    refine ⟨fun hle => absurd hlt (Nat.not_lt.mpr hle), fun _ => ?_⟩
    have hrun : cut.run fuel s = (.crashed (crashAt u failure.fault), u) := by
      rw [run_eq, hloop]
    refine ⟨u, text, hu, honly, ?_, ?_, hexit, fun fuel' hle => ?_⟩
    · simp [← hlater, ← hsize]
    · simp [← hlater, ← hsize]
    · rw [cut.run_of_le hle (by rw [hrun]; exact nofun), hrun]

def chatter : Machine where
  program := {
    code := (Code.ofBlock [
      .label "again" none,
      .eval (.call "print" [.call "one" [], .lit 2]) none,
      .goto "again" none,
      .function "one" [] false [.assign (.var "ans") (.lit 1) none] none]).toArray
    data := []
    labels := [("again", 0), ("one", 3)]
    dataLabels := [] }
  options := {}

theorem chatter_cut : ∃ u, u.writes.toList = ["1", "2", "1"] ∧ ∀ fuel ≥ 7,
    (chatter.withSink (.failing 3 (.system "disk full"))).run fuel
        (chatter.start (.ofScreen (.standard .off)) (.scripted [] [])) =
      (.crashed (crashAt u (.output "disk full")), u) := by
  have hwritten : ((chatter.withSink .steady).run 7
      (chatter.start (.ofScreen (.standard .off)) (.scripted [] []))).2.writes.toList =
        ["1", "2", "1", "2"] := by
    decide +kernel
  obtain ⟨u, text, -, -, hu, -, -, hrun⟩ := (chatter.failing_device_cuts_run (.system "disk full")
    (.ofScreen (.standard .off)) (.scripted [] []) 3 7).2.2 (by rw [hwritten]; decide)
  rw [hwritten] at hu
  exact ⟨u, hu, hrun⟩

end Machine

end BrownLang
