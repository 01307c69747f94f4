import BrownLang.Proofs.Execution.Blame
import BrownLang.Proofs.Execution.Log
import BrownLang.Report.Traceback

/-!
# The calls that are in progress

Frames, latest entries and the number of the current instruction are changed
at different times in the course of a call.  They agree whenever an
instruction is about to be executed: every call that has been entered and not
left has a frame, and the latest entry of each frame but the innermost is that
of the instruction that makes the next call.  Calls that are completed in
between take their frames and entries with them, so a crash is traced back
through exactly the calls that it interrupts, however few entries are kept.
-/

namespace BrownLang

/-- A call of `function` that the instruction `line` makes, when it is executed in `state`. -/
structure PendingCall where
  function : String
  state : State
  line : CodeLine

def PendingCall.entry (verbose : Bool) (p : PendingCall) : Entry := p.state.entry verbose p.line

namespace Machine

variable {m : Machine}

/--
A run that begins in `s₀` comes to the state `s` of the loop `k`, while the
calls `cs` are in progress, the innermost first.
-/
inductive Pending (m : Machine) (s₀ : State) : List PendingCall → Loop → State → Prop
  | begun : Pending m s₀ [] .top s₀
  | next {cs k s line n t} : Pending m s₀ cs k s → m.Going k s line →
      m.step (m.caller n) s = .ok () t → Pending m s₀ cs k t
  | enter {cs k s line n f args t u} : Pending m s₀ cs k s → m.Going k s line →
      Expr.CallsAll (m.caller n) line.instr.operands (s.recorded m.options.verbose line)
        f args t →
      m.Enters f args t u → Pending m s₀ (⟨f, s, line⟩ :: cs) .body u

theorem Pending.visits {s₀ s : State} {cs : List PendingCall} {k : Loop}
    (h : m.Pending s₀ cs k s) : m.Visits .top s₀ k s := by
  induction h with
  | begun => exact .here
  | next _ hgo hstep ih => exact ih.trans (.next hgo hstep .here)
  | enter _ hgo hcalls henter ih => exact ih.trans (.enter hgo hcalls henter .here)

theorem Pending.of_visits {s₀ s t : State} {cs : List PendingCall} {k k' : Loop}
    (hs : m.Pending s₀ cs k s) (h : m.Visits k s k' t) : ∃ cs', m.Pending s₀ cs' k' t := by
  induction h generalizing cs with
  | here => exact ⟨cs, hs⟩
  | next hgo hstep _ ih => exact ih (hs.next hgo hstep)
  | enter hgo hcalls henter _ ih => exact ih (hs.enter hgo hcalls henter)

theorem returns_of_callsAll {n : Nat} {es : List Expr} {s t : State} {f : String}
    {args : List Nat} (h : Expr.CallsAll (m.caller n) es s f args t) : State.Returns s t :=
  h.evolves State.evolution_returns (m.caller_returns n)

theorem advances_of_callsAll {n : Nat} {es : List Expr} {s t : State} {verbose : Bool}
    {line : CodeLine} {f : String} {args : List Nat}
    (h : Expr.CallsAll (m.caller n) es (s.recorded verbose line) f args t) :
    State.Advances s t :=
  (s.advances_recorded verbose line).trans (returns_of_callsAll h).advances

theorem Enters.frame {f : String} {args : List Nat} {s u : State} (h : m.Enters f args s u) :
    (∃ loc, u.calls = ⟨f, s.nextFrame, loc⟩ :: s.calls) ∧ u.nextFrame = s.nextFrame + 1 ∧
      u.journal = s.journal := by
  obtain ⟨entry, params, preserve, saved, t, -, hprep, rfl⟩ := h
  have hcontrol := (local_prepare params preserve args).control_eq s
  rw [hprep] at hcontrol
  simp only [State.control, Control.mk.injEq, Exec.Result.state] at hcontrol
  simp [State.entered, hcontrol]

end Machine

/-! ## Latest entries -/

/-- The latest entries of the frames `fs` are `es`, and each was made in its frame. -/
structure Journal.Backs (j : Journal) (fs : List Frame) (es : List Entry) : Prop where
  latest : fs.map j.entryOf? = es.map some
  own : fs.map (fun f => some f.id) = es.map Entry.frame

namespace Journal.Backs

variable {j : Journal} {f : Frame} {fs : List Frame} {e : Entry} {es : List Entry}

theorem cons (h : j.Backs fs es) (hlatest : j.entryOf? f = some e) (hown : e.frame = some f.id) :
    j.Backs (f :: fs) (e :: es) := by
  constructor
  · simp [hlatest, h.latest]
  · simp [hown, h.own]

theorem congr {j' : Journal} (h : j.Backs fs es)
    (hj : ∀ f ∈ fs, j'.entryOf? f = j.entryOf? f) : j'.Backs fs es := by
  constructor
  · rw [List.map_congr_left hj, h.latest]
  · exact h.own

end Journal.Backs

namespace Machine

variable {m : Machine}

/--
The frames of `s` are those of the calls `cs`, with the top level below them,
and the latest entries of the callers are those of the instructions that make
the calls.
-/
structure Tracks (m : Machine) (cs : List PendingCall) (s : State) : Prop where
  names : s.calls.map Frame.name = cs.map PendingCall.function ++ ["<top-level>"]
  ordered : s.calls.Pairwise fun f g => g.id < f.id
  below : ∀ f ∈ s.calls, f.id < s.nextFrame
  callers : s.journal.Backs s.calls.tail (cs.map (PendingCall.entry m.options.verbose))

theorem tracks_begun (canvas : Canvas) (generator : Generator) :
    m.Tracks [] (m.start canvas generator).begun where
  names := rfl
  ordered := List.pairwise_singleton _ _
  below := by simp [State.begun, State.entered, start]
  callers := ⟨rfl, rfl⟩

section

variable {cs : List PendingCall} {s t : State}

theorem Tracks.exists_cons (h : m.Tracks cs s) : ∃ f fs, s.calls = f :: fs := by
  cases hcalls : s.calls with
  | nil => simpa [hcalls] using h.names
  | cons f fs => exact ⟨f, fs, rfl⟩

theorem Tracks.callers_older (h : m.Tracks cs s) :
    ∀ f ∈ s.calls.tail, f.id < s.nextFrame ∧ s.frameId? ≠ some f.id := by
  intro f hf
  obtain ⟨g, fs, hcalls⟩ := h.exists_cons
  have hordered := h.ordered
  rw [hcalls] at hf hordered
  have hlt : f.id < g.id := List.rel_of_pairwise_cons hordered hf
  constructor
  · exact h.below f (by simp [hcalls, show f ∈ fs from hf])
  · simp only [State.frameId?, hcalls, List.head?_cons, Option.map_some, ne_eq,
      Option.some.injEq]
    omega

theorem Tracks.advances (h : m.Tracks cs s) (hadv : State.Advances s t) : m.Tracks cs t where
  names := by rw [hadv.calls_eq, h.names]
  ordered := by rw [hadv.calls_eq]; exact h.ordered
  below := by
    intro f hf
    rw [hadv.calls_eq] at hf
    exact Nat.lt_of_lt_of_le (h.below f hf) hadv.frames_le
  callers := by
    rw [hadv.calls_eq]
    refine h.callers.congr fun f hf => ?_
    obtain ⟨hbelow, hother⟩ := h.callers_older f hf
    exact hadv.latest_eq f.id hbelow hother

theorem Tracks.executing {line : CodeLine} (h : m.Tracks cs s) (hs : m.Busy s)
    (hreturns : State.Returns (s.recorded m.options.verbose line) t) :
    t.journal.Backs t.calls
      (s.entry m.options.verbose line :: cs.map (PendingCall.entry m.options.verbose)) := by
  have hadv := (s.advances_recorded m.options.verbose line).trans hreturns.advances
  have ht := h.advances hadv
  have hrec := hs.advances (s.advances_recorded m.options.verbose line)
  have hlatest := (ownLatest?_of_returns hrec hreturns).trans (ownLatest?_recorded hs _ _)
  obtain ⟨f, fs, hcalls⟩ := ht.exists_cons
  have hcallers := ht.callers
  rw [State.ownLatest?, hcalls] at hlatest
  rw [hcalls] at hcallers ⊢
  refine hcallers.cons hlatest ?_
  calc (s.entry m.options.verbose line).frame
      = s.frameId? := rfl
    _ = t.frameId? := hadv.frameId_eq.symm
    _ = some f.id := by rw [State.frameId?, hcalls]; rfl

theorem Tracks.enters {line : CodeLine} {n : Nat} {f : String} {args : List Nat} {u : State}
    (h : m.Tracks cs s) (hs : m.Busy s)
    (hcalls : Expr.CallsAll (m.caller n) line.instr.operands
      (s.recorded m.options.verbose line) f args t)
    (henter : m.Enters f args t u) : m.Tracks (⟨f, s, line⟩ :: cs) u := by
  have ht := h.advances (advances_of_callsAll hcalls)
  obtain ⟨⟨loc, hframe⟩, hnext, hjournal⟩ := henter.frame
  constructor
  case names => simp [hframe, ht.names]
  case ordered =>
    rw [hframe, List.pairwise_cons]
    exact ⟨ht.below, ht.ordered⟩
  case below =>
    intro g hg
    rw [hframe] at hg
    rw [hnext]
    cases hg with
    | head => exact Nat.lt_succ_self _
    | tail _ hg => exact Nat.lt_succ_of_lt (ht.below g hg)
  case callers =>
    rw [hframe, hjournal]
    exact h.executing hs (returns_of_callsAll hcalls)

theorem Pending.tracks {s₀ : State} {k : Loop} (h : m.Pending s₀ cs k s)
    (htracks : m.Tracks [] s₀) (hbusy : m.Busy s₀) : m.Tracks cs s := by
  induction h with
  | begun => exact htracks
  | next _ hgo hstep ih =>
      obtain ⟨hadv, -⟩ := m.step_ok (m.caller_returns _) hgo.1 hstep
      exact ih.advances hadv
  | enter hs _ hcalls henter ih => exact ih.enters (Busy.visits hs.visits hbusy) hcalls henter

end

end Machine

/-! ## Calls that fail -/

namespace Expr

variable {call : Caller} {f : String} {args : List Nat} {t u : State} {h : Halt}

mutual

theorem Calls.eval_error {e : Expr} {s : State} (hc : e.Calls call s f args t)
    (hcall : call f args t = .error h u) : e.eval call s = .error h u := by
  match hc with
  | .word hc => exact Exec.bind_of_error (hc.eval_error hcall)
  | .byte hc => exact Exec.bind_of_error (hc.eval_error hcall)
  | .left hc => exact Exec.bind_of_error (hc.eval_error hcall)
  | .right hl hc =>
      rw [eval, Exec.bind_of_ok hl]
      exact Exec.bind_of_error (hc.eval_error hcall)
  | .within hc => exact Exec.bind_of_error (hc.evalAll_error hcall)
  | .here hes =>
      rw [eval, Exec.bind_of_ok hes]
      exact hcall

theorem CallsAll.evalAll_error {es : List Expr} {s : State} (hc : CallsAll call es s f args t)
    (hcall : call f args t = .error h u) : evalAll call es s = .error h u := by
  match hc with
  | .head hc => exact Exec.bind_of_error (hc.eval_error hcall)
  | .tail he hc =>
      rw [evalAll, Exec.bind_of_ok he]
      exact Exec.bind_of_error (hc.evalAll_error hcall)

end

end Expr

namespace Machine

variable {m : Machine}

theorem Visits.calls_suffix {k k' : Loop} {s t : State} (h : m.Visits k s k' t) :
    s.calls <:+ t.calls := by
  induction h with
  | here => exact List.suffix_rfl
  | next hgo hstep _ ih =>
      obtain ⟨hadv, -⟩ := m.step_ok (m.caller_returns _) hgo.1 hstep
      rwa [hadv.calls_eq] at ih
  | enter _ hcalls henter _ ih =>
      obtain ⟨⟨loc, hframe⟩, -⟩ := henter.frame
      rw [hframe, (advances_of_callsAll hcalls).calls_eq] at ih
      exact (List.suffix_cons _ _).trans ih

theorem body_fault {n : Nat} {f : String} {args : List Nat} {s t u : State} {e : Fault}
    (hs : m.Busy s) (henter : m.Enters f args s u)
    (h : m.caller n f args s = .error (.fault e) t) :
    m.loop .body n u = .error (.fault e) t := by
  have hu := hs.enters henter
  obtain ⟨entry, params, preserve, saved, r, hres, hprep, rfl⟩ := henter
  rw [caller, m.call_of_resolves hres, enter_eq, Exec.bind_of_ok hprep] at h
  rcases Exec.bind_eq_error.mp h with henter | ⟨_, v, henter, h⟩
  · exact nomatch henter
  injection henter with _ hv
  subst hv
  rcases Exec.bind_eq_error.mp h with hbody | ⟨_, w, hbody, h⟩
  · exact hbody
  -- After the body, nothing is left that could fail.
  have hadv := (m.executes_untilReturn n _ _ hbody).1
  have hin : r.Grows (r.entered f (m.locAt s.ip) entry) := .of_eq rfl rfl
  have hgrows : r.Grows w := hin.trans hadv.grows
  obtain ⟨x, y, hok⟩ := conclude_of_housed saved (hu.advances hadv).roomy fun z hz =>
    (housed_of_prepare hprep z hz).grows hgrows
  rw [Exec.bind_of_ok hok] at h
  exact nomatch h

/--
The instruction `line`, started in `s`, fails in `t`, and not because a call
fails: all functions that have been entered have returned.
-/
structure Fails (m : Machine) (n : Nat) (s : State) (line : CodeLine) (e : Fault) (t : State) :
    Prop where
  fault : m.execute (m.caller n) line.instr (s.recorded m.options.verbose line) =
    .error (.fault e) t
  returned : ∀ f args u v,
    Expr.CallsAll (m.caller n) line.instr.operands (s.recorded m.options.verbose line) f args u →
    m.Enters f args u v → ∃ r w, m.caller n f args u = .ok r w

theorem fails_of_returns {n : Nat} {s t : State} {line : CodeLine} {e : Fault} (hs : m.Busy s)
    (hexec : m.execute (m.caller n) line.instr (s.recorded m.options.verbose line) =
      .error (.fault e) t)
    (hreturns : State.Returns (s.recorded m.options.verbose line) t) : m.Fails n s line e t := by
  refine ⟨hexec, fun f args u v hcalls henter => ?_⟩
  cases hcall : m.caller n f args u with
  | ok r w => exact ⟨r, w, rfl⟩
  | error h w =>
      -- The frame of the call would still be there.
      rw [execute_eq_effect, Exec.bind_of_error (hcalls.evalAll_error hcall)] at hexec
      injection hexec with hh hw
      subst hh hw
      have hbusy : m.Busy u := hs.advances (advances_of_callsAll hcalls)
      have hbody := body_fault hbusy henter hcall
      obtain ⟨k, x, _, _, hvisit, -, -, hx⟩ := failing_instruction (hbusy.enters henter) hbody
      obtain ⟨⟨loc, hframe⟩, -⟩ := henter.frame
      have hle := hvisit.calls_suffix.length_le
      have hw : w.calls = x.calls := hx.calls_eq
      rw [← hw, hreturns.calls_eq, ← (returns_of_callsAll hcalls).calls_eq, hframe,
        List.length_cons] at hle
      omega

end Machine

/-! ## Tracebacks -/

@[simp] theorem TracebackFrame.name_ofFrame (j : Journal) (f : Frame) :
    (TracebackFrame.ofFrame j f).name = f.name := by
  unfold TracebackFrame.ofFrame
  split <;> rfl

@[simp] theorem TracebackFrame.entry_ofFrame (j : Journal) (f : Frame) :
    (TracebackFrame.ofFrame j f).entry = j.entryOf? f := by
  unfold TracebackFrame.ofFrame
  split
  next e he => exact he.symm
  next he => exact he.symm

namespace Machine

variable {m : Machine}

/--
A crash in `t` is traced back through the calls `cs` to the instruction that
made the entry `e`: the calls have their frames, with the top level below
them; each frame is shown with an entry that was made in it; and the entry of
a caller is that of the instruction that makes the call.
-/
structure Crash.TracedBack (c : Crash) (t : State) (verbose : Bool) (cs : List PendingCall)
    (e : Entry) : Prop where
  calls : t.calls.reverse.map Frame.name =
    "<top-level>" :: cs.reverse.map PendingCall.function
  names : (Traceback.ofState c t).frames.map TracebackFrame.name =
    t.calls.reverse.map Frame.name
  entries : (Traceback.ofState c t).frames.map TracebackFrame.entry =
    (cs.reverse.map (PendingCall.entry verbose) ++ [e]).map some
  own : t.calls.reverse.map (fun f => some f.id) =
    (cs.reverse.map (PendingCall.entry verbose) ++ [e]).map Entry.frame
  ips : (Traceback.ofState c t).frames.map (fun f => f.entry.map Entry.ip) =
    (cs.reverse.map (fun p => p.state.ip) ++ [t.ip]).map some

theorem Tracks.tracedBack {cs : List PendingCall} {s t : State} {line : CodeLine} (c : Crash)
    (h : m.Tracks cs s) (hs : m.Busy s)
    (hreturns : State.Returns (s.recorded m.options.verbose line) t) :
    c.TracedBack t m.options.verbose cs (s.entry m.options.verbose line) := by
  have hbacks := h.executing hs hreturns
  have hip : t.ip = s.ip := hreturns.ip_eq
  have hcalls : t.calls = s.calls := hreturns.calls_eq
  have hentries : (Traceback.ofState c t).frames.map TracebackFrame.entry =
      (cs.reverse.map (PendingCall.entry m.options.verbose) ++
        [s.entry m.options.verbose line]).map some := by
    have := congrArg List.reverse hbacks.latest
    simpa [Traceback.ofState, Function.comp_def] using this
  constructor
  case calls => simp [hcalls, h.names]
  case names => simp [Traceback.ofState, Function.comp_def]
  case entries => exact hentries
  case own =>
    have := congrArg List.reverse hbacks.own
    simpa [Function.comp_def] using this
  case ips =>
    have := congrArg (List.map (Option.map Entry.ip)) hentries
    simpa [Function.comp_def, PendingCall.entry, State.entry, hip] using this

theorem loop_of_run_crashed {fuel : Nat} {s t : State} {c : Crash}
    (h : m.run fuel s = (.crashed c, t)) :
    m.loop .top fuel s.begun = .error (.fault c.fault) t := by
  rw [run_eq] at h
  split at h
  case h_3 f u heq =>
    injection h with hcrash hu
    injection hcrash with hcrash
    subst hu hcrash
    exact heq
  all_goals exact nomatch h

/--
A run that crashes does so in an instruction that fails by itself.  The
program is left there, and the crash is traced back through the calls that
were in progress, whatever the number of entries that are kept.
-/
theorem traceback_shows_calls (m : Machine) (canvas : Canvas) (generator : Generator)
    (fuel : Nat) (c : Crash) (t : State)
    (hans : m.program.dataLabels.lookup returnVariable = none)
    (h : m.run fuel (m.start canvas generator) = (.crashed c, t)) :
    ∃ cs k s line n,
      m.Pending (m.start canvas generator).begun cs k s ∧ m.Going k s line ∧
      m.Fails n s line c.fault t ∧ t.ip = s.ip ∧
      c.TracedBack t m.options.verbose cs (s.entry m.options.verbose line) := by
  have hstart := busy_start hans canvas generator
  obtain ⟨k, s, line, n, hvisit, hgo, hexec, hreturns⟩ :=
    failing_instruction hstart (loop_of_run_crashed h)
  obtain ⟨cs, hpending⟩ := Pending.begun.of_visits hvisit
  have hbusy := Busy.visits hvisit hstart
  have htracks := hpending.tracks (tracks_begun canvas generator) hstart
  refine ⟨cs, k, s, line, n, hpending, hgo, ?_, hreturns.ip_eq, ?_⟩
  · exact fails_of_returns hbusy hexec hreturns
  · exact htracks.tracedBack c hbusy hreturns

def interrupted : Machine where
  program := {
    code := (Code.ofBlock [
      .assign (.var "y") (.bin (.known .add) (.call "f" []) (.lit 1))
        (some ⟨"<test>", 1, 1, "f() + 1 -> y"⟩),
      .function "g" [] false [] (some ⟨"<test>", 2, 1, "fun g()"⟩),
      .function "f" [] false
        [.assign (.var "x") (.bin (.known .div) (.call "g" []) (.lit 0))
          (some ⟨"<test>", 5, 3, "g() / 0 -> x"⟩)]
        (some ⟨"<test>", 4, 1, "fun f()"⟩)]).toArray
    data := []
    labels := [("g", 1), ("f", 3)]
    dataLabels := [] }
  options := { historyLimit := 0 }

def interrupted.begin : State := interrupted.start (.ofScreen (.standard .off)) (.scripted [] [])

theorem run_interrupted : interrupted.run 9 interrupted.begin =
    (.crashed ⟨.divisionByZero, none, none⟩, (interrupted.run 9 interrupted.begin).2) := by
  have hcrash : (interrupted.run 9 interrupted.begin).1 =
      .crashed ⟨.divisionByZero, none, none⟩ := by
    decide +kernel
  generalize interrupted.run 9 interrupted.begin = result at hcrash
  rw [← hcrash]

theorem interrupted_traced_back : ∃ c t, interrupted.run 9 interrupted.begin = (.crashed c, t) ∧
    ∃ cs k s line n,
      interrupted.Pending interrupted.begin.begun cs k s ∧ interrupted.Going k s line ∧
      interrupted.Fails n s line c.fault t ∧ t.ip = s.ip ∧
      c.TracedBack t false cs (s.entry false line) := by
  refine ⟨_, _, run_interrupted, ?_⟩
  exact traceback_shows_calls interrupted _ _ 9 _ _ rfl run_interrupted

example : (interrupted.run 9 interrupted.begin).2.calls.map Frame.name = ["f", "<top-level>"] := by
  decide +kernel

end Machine

end BrownLang
