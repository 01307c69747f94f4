import BrownLang.Proofs.Execution.Visit

/-!
# The instruction that is blamed

A crash is reported with the place and the number of the latest entry of the
journal.  The instruction whose execution fails has made an entry too, the
latest one of its frame; but calls that it has completed have made later ones.
So the report is right just if the instruction has completed no call.

A call cannot fail between the end of its body and its return unless `ans` is a
data label: what is read and written there has its word inside memory.
-/

namespace BrownLang

namespace State

def Housed (s : State) (x : String) : Prop :=
  ∃ a, s.vars.lookup x = some a ∧ a + 4 ≤ s.memory.size

/-- A variable that has its word inside memory, or has none so far. -/
def Roomy (s : State) (x : String) : Prop :=
  ∀ a, s.vars.lookup x = some a → a + 4 ≤ s.memory.size

theorem Housed.roomy {s : State} {x : String} (h : s.Housed x) : s.Roomy x := by
  obtain ⟨a, ha, hin⟩ := h
  intro b hb
  rw [ha] at hb
  cases hb
  exact hin

theorem Housed.grows {s t : State} {x : String} (h : s.Housed x) (hg : s.Grows t) :
    t.Housed x := by
  obtain ⟨a, ha, hin⟩ := h
  exact ⟨a, hg.kept x a ha, Nat.le_trans hin hg.size_le⟩

theorem Roomy.grows {s t : State} {x : String} (h : s.Roomy x) (hg : s.Grows t) :
    t.Roomy x := by
  intro a ha
  rcases hg.fresh x a ha with hs | hin
  · exact Nat.le_trans (h a hs) hg.size_le
  · exact hin

end State

namespace Exec

theorem housed_of_readWord {a v : Nat} {s t : State} (h : readWord a s = .ok v t) :
    a + 4 ≤ s.memory.size := by
  obtain ⟨_, u, hcheck, -⟩ := bind_eq_ok.mp h
  rw [check_eq] at hcheck
  split at hcheck
  next hin => exact hin
  next => exact nomatch hcheck

theorem addressOf_of_roomy {s : State} {x : String} (h : s.Roomy x) :
    ∃ a t, addressOf x s = .ok a t ∧ a + 4 ≤ t.memory.size := by
  cases hx : s.vars.lookup x with
  | some a => exact ⟨a, s, addressOf_of_some hx, h a hx⟩
  | none =>
      refine ⟨_, _, addressOf_of_none hx, ?_⟩
      simp

theorem readVar_of_roomy {s : State} {x : String} (h : s.Roomy x) :
    ∃ v t, readVar x s = .ok v t := by
  obtain ⟨a, t, haddr, hin⟩ := addressOf_of_roomy h
  refine ⟨t.memory.wordAt a, t, ?_⟩
  rw [readVar, bind_of_ok haddr, readWord_of_le hin]

theorem writeVar_of_roomy {s : State} {x : String} (h : s.Roomy x) (v : Int) :
    ∃ t, writeVar x v s = .ok () t := by
  obtain ⟨a, t, haddr, hin⟩ := addressOf_of_roomy h
  refine ⟨{ t with memory := t.memory.setWord a (Word.ofInt v) }, ?_⟩
  rw [writeVar, bind_of_ok haddr, writeWord_of_le hin]

theorem housed_of_readVar {s t : State} {x : String} {v : Nat} (h : readVar x s = .ok v t) :
    t.Housed x := by
  obtain ⟨a, u, haddr, hread⟩ := bind_eq_ok.mp h
  have hin := housed_of_readWord hread
  have hlookup : u.Housed x := by
    cases hx : s.vars.lookup x with
    | some b =>
        rw [addressOf_of_some hx] at haddr
        injection haddr with ha hs
        subst ha hs
        exact ⟨b, hx, hin⟩
    | none =>
        rw [addressOf_of_none hx] at haddr
        injection haddr with ha hs
        subst ha hs
        refine ⟨s.memory.size, ?_, hin⟩
        simp [List.lookup_append, hx]
  exact hlookup.grows ((local_readWord a).grows_ok hread)

theorem housed_of_readVars {xs : List String} {s t : State} {vs : List Nat}
    (h : readVars xs s = .ok vs t) : ∀ x ∈ xs, t.Housed x := by
  induction xs generalizing s vs with
  | nil => exact fun x hx => nomatch hx
  | cons y ys ih =>
      obtain ⟨v, u, hy, h⟩ := bind_eq_ok.mp h
      obtain ⟨ws, w, hys, h⟩ := bind_eq_ok.mp h
      injection h with _ ht
      subst ht
      intro x hx
      rcases List.mem_cons.mp hx with rfl | hx
      · exact (housed_of_readVar hy).grows ((local_readVars ys).grows_ok hys)
      · exact ih hys x hx

theorem writeVars_of_housed {xs : List String} (vs : List Nat) {s : State}
    (h : ∀ x ∈ xs, s.Housed x) : ∃ t, writeVars xs vs s = .ok () t := by
  induction xs generalizing s vs with
  | nil => exact ⟨s, rfl⟩
  | cons y ys ih =>
      obtain ⟨u, hy⟩ := writeVar_of_roomy (h y (by simp)).roomy (vs.headD 0)
      have hgrows := (local_writeVar y _).grows_ok hy
      obtain ⟨t, hys⟩ := ih vs.tail fun x hx =>
        (h x (List.mem_cons_of_mem _ hx)).grows hgrows
      refine ⟨t, ?_⟩
      rw [writeVars, bind_of_ok hy]
      exact hys

end Exec

namespace Machine

theorem housed_of_prepare {params : List String} {preserve : Bool} {args saved : List Nat}
    {s t : State} (h : prepare params preserve args s = .ok saved t) :
    ∀ x ∈ preserved params preserve, t.Housed x := by
  obtain ⟨vs, u, hread, h⟩ := Exec.bind_eq_ok.mp h
  obtain ⟨_, w, hwrite, h⟩ := Exec.bind_eq_ok.mp h
  injection h with _ ht
  subst ht
  have hgrows := (Exec.local_writeVars params args).grows_ok hwrite
  exact fun x hx => (Exec.housed_of_readVars hread x hx).grows hgrows

theorem conclude_of_housed {params : List String} {preserve : Bool} (saved : List Nat)
    {s : State} (hans : s.Roomy returnVariable)
    (h : ∀ x ∈ preserved params preserve, s.Housed x) :
    ∃ v t, conclude params preserve saved s = .ok v t := by
  obtain ⟨v, u, hread⟩ := Exec.readVar_of_roomy hans
  have hgrows := (Exec.local_readVar returnVariable).grows_ok hread
  obtain ⟨t, hwrite⟩ := Exec.writeVars_of_housed saved fun x hx => (h x hx).grows hgrows
  refine ⟨v, t, ?_⟩
  rw [conclude, Exec.bind_of_ok hread, Exec.bind_of_ok hwrite]
  rfl

/-! ## States in which something is being executed -/

variable (m : Machine)

/--
A frame is active, and its number has been given out; the journal has the size
that was asked for; and the value of a call has a place to be.
-/
structure Busy (s : State) : Prop where
  active : ∃ frame rest, s.calls = frame :: rest ∧ frame.id < s.nextFrame
  limit_eq : s.journal.kept.limit = m.options.historyLimit
  roomy : s.Roomy returnVariable

variable {m}

theorem Busy.advances {s t : State} (h : m.Busy s) (hadv : s.Advances t) : m.Busy t := by
  obtain ⟨frame, rest, hcalls, hid⟩ := h.active
  refine ⟨⟨frame, rest, ?_, ?_⟩, ?_, ?_⟩
  · rw [hadv.calls_eq, hcalls]
  · exact Nat.lt_of_lt_of_le hid hadv.frames_le
  · rw [hadv.limit_eq, h.limit_eq]
  · exact h.roomy.grows hadv.grows

theorem Busy.enters {f : String} {args : List Nat} {s u : State} (h : m.Busy s)
    (henter : m.Enters f args s u) : m.Busy u := by
  obtain ⟨entry, params, preserve, saved, t, -, hprep, rfl⟩ := henter
  have hlocal := local_prepare params preserve args
  have ht := h.advances (State.evolution_returns.of_local_ok hlocal hprep).advances
  refine ⟨⟨_, _, rfl, ?_⟩, ht.limit_eq, ht.roomy⟩
  exact Nat.lt_succ_self _

theorem Busy.visits {k k' : Loop} {s t : State} (h : m.Visits k s k' t) (hs : m.Busy s) :
    m.Busy t := by
  induction h with
  | here => exact hs
  | next hgo hstep _ ih =>
      obtain ⟨hadv, -⟩ := m.step_ok (m.caller_returns _) hgo.1 hstep
      exact ih (hs.advances hadv)
  | enter _ hcalls henter _ ih =>
      have hreturns := hcalls.evolves State.evolution_returns (m.caller_returns _)
      have hadv := (State.advances_recorded _ _ _).trans hreturns.advances
      exact ih ((hs.advances hadv).enters henter)

theorem busy_start (hans : m.program.dataLabels.lookup returnVariable = none) (canvas : Canvas)
    (generator : Generator) : m.Busy (m.start canvas generator).begun where
  active := ⟨_, _, rfl, Nat.zero_lt_one⟩
  limit_eq := rfl
  roomy a ha := by
    have hnone : (m.start canvas generator).begun.vars.lookup returnVariable = none := hans
    rw [hnone] at ha
    exact nomatch ha

theorem failing_instruction {k : Loop} {n : Nat} {s t : State} {f : Fault} (hs : m.Busy s)
    (h : m.loop k n s = .error (.fault f) t) :
    ∃ k' u line n', m.Visits k s k' u ∧ m.Going k' u line ∧
      m.execute (m.caller n') line.instr (u.recorded m.options.verbose line) =
        .error (.fault f) t ∧
      State.Returns (u.recorded m.options.verbose line) t := by
  obtain ⟨k', u, hvisit, hhalts⟩ := m.loop_halts h
  cases hhalts with
  | instruction hgo hexec hreturns => exact ⟨k', u, _, _, hvisit, hgo, hexec, hreturns⟩
  | conclusion _ hprep hgrows hconc =>
      -- What a conclusion reads and writes was in memory when the call began, and memory grows.
      have hroomy := (Busy.visits hvisit hs).roomy
      obtain ⟨v, w, hok⟩ := conclude_of_housed _ hroomy fun x hx =>
        (housed_of_prepare hprep x hx).grows hgrows
      rw [hok] at hconc
      exact nomatch hconc

end Machine

/-! ## What a crash says -/

def State.ownLatest? (s : State) : Option Entry := s.calls.head?.bind s.journal.entryOf?

/--
A crash names the instruction at which it leaves the program, by its location
if that has one, and by the number of the entry that it has made.
-/
structure Machine.Crash.Names (c : Machine.Crash) (m : Machine) (s : State) : Prop where
  loc : ∀ loc, m.locAt s.ip = some loc → c.loc = some loc
  step : ∃ e, s.ownLatest? = some e ∧ c.step = some e.step

namespace Machine

variable {m : Machine}

theorem ownLatest?_recorded {s : State} (hs : m.Busy s) (verbose : Bool) (line : CodeLine) :
    (s.recorded verbose line).ownLatest? = some (s.entry verbose line) := by
  obtain ⟨frame, rest, hcalls, -⟩ := hs.active
  have hown : s.frameId? = some frame.id := by
    rw [State.frameId?, hcalls]
    rfl
  have hlatest : (s.recorded verbose line).journal.latest =
      s.journal.latest.put frame.id (s.entry verbose line) := by
    simp only [State.recorded, Journal.add, State.entry, hown]
  have hcalls' : (s.recorded verbose line).calls = frame :: rest := hcalls
  rw [State.ownLatest?, hcalls', List.head?_cons, Option.bind_some, Journal.entryOf?, hlatest,
    FrameEntries.lookup_put, if_pos rfl]

theorem ownLatest?_of_returns {s t : State} (hs : m.Busy s) (h : State.Returns s t) :
    t.ownLatest? = s.ownLatest? := by
  obtain ⟨frame, rest, hcalls, hid⟩ := hs.active
  rw [State.ownLatest?, State.ownLatest?, h.calls_eq, hcalls, List.head?_cons, Option.bind_some,
    Option.bind_some, Journal.entryOf?, Journal.entryOf?, h.latest_eq _ hid]

theorem latest?_of_returns {s t : State} {verbose : Bool} {line : CodeLine}
    (hlimit : 0 < s.journal.kept.limit) (h : State.Returns (s.recorded verbose line) t) :
    (t.nextFrame = s.nextFrame ∧ t.journal.kept.latest? = some (s.entry verbose line)) ∨
      (t.nextFrame ≠ s.nextFrame ∧
        ∃ e, t.journal.kept.latest? = some e ∧ s.journal.next < e.step) := by
  have hkept : (s.recorded verbose line).journal.kept =
      s.journal.kept.push (s.entry verbose line) := rfl
  rcases h.news with ⟨hframe, -, hlog⟩ | ⟨hframe, -, hlast⟩
  · left
    refine ⟨hframe, ?_⟩
    rw [hlog, hkept, State.latest?_push _ hlimit]
  · right
    refine ⟨Nat.ne_of_gt hframe, ?_⟩
    have hpos : 0 < t.journal.kept.limit := by
      rw [h.limit_eq, hkept, Window.limit_push]
      exact hlimit
    obtain ⟨e, he, hle, -⟩ := hlast hpos
    exact ⟨e, he, hle⟩

/--
A run that crashes does so in the execution of an instruction.  The program is
left at this instruction, and the latest entry of the innermost frame is the
one that the instruction made.  The crash names it just if this execution has
completed no call of a function of the program before it failed.
-/
theorem crash_names_iff (m : Machine) (canvas : Canvas) (generator : Generator) (fuel : Nat)
    (c : Crash) (s : State) (hlimit : 0 < m.options.historyLimit)
    (hans : m.program.dataLabels.lookup returnVariable = none)
    (h : m.run fuel (m.start canvas generator) = (.crashed c, s)) :
    ∃ k t line n,
      m.Visits .top (m.start canvas generator).begun k t ∧ m.Going k t line ∧
      m.execute (m.caller n) line.instr (t.recorded m.options.verbose line) =
        .error (.fault c.fault) s ∧
      s.ip = t.ip ∧ s.calls = t.calls ∧ s.ownLatest? = some (t.entry m.options.verbose line) ∧
      (c.Names m s ↔ s.nextFrame = t.nextFrame) := by
  have hstart := busy_start hans canvas generator
  obtain ⟨hloop, hc⟩ : m.loop .top fuel (m.start canvas generator).begun =
      .error (.fault c.fault) s ∧ c = crashAt s c.fault := by
    rw [run_eq] at h
    split at h
    case h_3 f t heq =>
      injection h with hcrash hs
      injection hcrash with hcrash
      subst hs hcrash
      exact ⟨heq, rfl⟩
    all_goals exact nomatch h
  obtain ⟨k, t, line, n, hvisit, hgo, hexec, hreturns⟩ := failing_instruction hstart hloop
  have ht := Busy.visits hvisit hstart
  have hrec : m.Busy (t.recorded m.options.verbose line) :=
    ht.advances (t.advances_recorded _ _)
  have hip : s.ip = t.ip := hreturns.ip_eq
  have hown : s.ownLatest? = some (t.entry m.options.verbose line) :=
    (ownLatest?_of_returns hrec hreturns).trans (ownLatest?_recorded ht _ _)
  have hloc : m.locAt s.ip = line.loc := by
    rw [locAt, hip, hgo.1]
    rfl
  refine ⟨k, t, line, n, hvisit, hgo, hexec, hip, hreturns.calls_eq, hown, ?_⟩
  rw [hc]
  -- A completed call has left entries that are later than that of the instruction.
  rcases latest?_of_returns (by rw [ht.limit_eq]; exact hlimit) hreturns with
    ⟨hframe, hlatest⟩ | ⟨hframe, e, hlatest, hlt⟩
  · refine iff_of_true ⟨?_, _, hown, ?_⟩ hframe
    · intro loc hl
      rw [← hl, hloc, crashAt, hlatest]
      rfl
    · rw [crashAt, hlatest]
      rfl
  · refine iff_of_false ?_ hframe
    rintro ⟨-, e', he', hstep⟩
    rw [hown] at he'
    cases he'
    rw [crashAt, hlatest] at hstep
    have : e.step = t.journal.next := Option.some.inj hstep
    omega

def misled : Machine where
  program := {
    code := (Code.ofBlock [
      .function "f" [] false
        [.assign (.var "ans") (.lit 1) (some ⟨"<test>", 2, 3, "1 -> ans"⟩)]
        (some ⟨"<test>", 1, 1, "fun f()"⟩),
      .assign (.var "x") (.bin (.known .div) (.call "f" []) (.lit 0))
        (some ⟨"<test>", 4, 1, "f() / 0 -> x"⟩)]).toArray
    data := []
    labels := [("f", 0)]
    dataLabels := [] }
  options := {}

def misled.begin : State := misled.start (.ofScreen (.standard .off)) (.scripted [] [])

theorem run_misled : misled.run 9 misled.begin =
    (.crashed ⟨.divisionByZero, some ⟨"<test>", 2, 3, "1 -> ans"⟩, some 5⟩,
      (misled.run 9 misled.begin).2) := by
  have hcrash : (misled.run 9 misled.begin).1 =
      .crashed ⟨.divisionByZero, some ⟨"<test>", 2, 3, "1 -> ans"⟩, some 5⟩ := by
    decide +kernel
  generalize misled.run 9 misled.begin = result at hcrash
  rw [← hcrash]

theorem misled_crashes : ∃ c s, misled.run 9 misled.begin = (.crashed c, s) ∧
    ∃ k t line n, misled.Visits .top misled.begin.begun k t ∧ misled.Going k t line ∧
      misled.execute (misled.caller n) line.instr (t.recorded false line) =
        .error (.fault c.fault) s ∧
      s.ip = t.ip ∧ s.calls = t.calls ∧ s.ownLatest? = some (t.entry false line) ∧
      (c.Names misled s ↔ s.nextFrame = t.nextFrame) := by
  refine ⟨_, _, run_misled, ?_⟩
  exact crash_names_iff misled _ _ 9 _ _ (by decide) rfl run_misled

theorem not_crash_names : ¬ ∀ (m : Machine) (canvas : Canvas) (generator : Generator)
    (fuel : Nat) (c : Crash) (s : State), 0 < m.options.historyLimit →
      m.program.dataLabels.lookup returnVariable = none →
      m.run fuel (m.start canvas generator) = (.crashed c, s) → c.Names m s := by
  intro h
  have hnames := h misled _ _ 9 _ _ (by decide) rfl run_misled
  have hloc : misled.locAt (misled.run 9 misled.begin).2.ip =
      some ⟨"<test>", 4, 1, "f() / 0 -> x"⟩ := by
    decide +kernel
  exact absurd (hnames.loc _ hloc) (by decide)

end Machine

end BrownLang
