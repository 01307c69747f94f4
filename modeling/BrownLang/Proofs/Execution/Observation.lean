import BrownLang.Proofs.Execution.Log
import BrownLang.Proofs.Execution.Variables
import BrownLang.Report.Traceback

/-!
# Observing a run does not change it

A verbose journal has the values of the variables in its entries, and a journal
keeps as many entries as its limit says.  Two machines that differ in this only
go through a program in the same way, and their journals show parts of one log.
-/

namespace BrownLang

/-! ## What a journal shows of a log -/

def Entry.bare (e : Entry) : Entry := { e with snapshot := none }

def Entry.shown (verbose : Bool) (e : Entry) : Entry := if verbose then e else e.bare

@[simp] theorem Entry.frame_shown (verbose : Bool) (e : Entry) :
    (e.shown verbose).frame = e.frame := by
  cases verbose <;> rfl

@[simp] theorem Entry.step_shown (verbose : Bool) (e : Entry) :
    (e.shown verbose).step = e.step := by
  cases verbose <;> rfl

@[simp] theorem Entry.loc_shown (verbose : Bool) (e : Entry) : (e.shown verbose).loc = e.loc := by
  cases verbose <;> rfl

@[simp] theorem Entry.bare_shown (verbose : Bool) (e : Entry) :
    (e.shown verbose).bare = e.bare := by
  cases verbose <;> rfl

theorem State.entry_eq_shown (s : State) (verbose : Bool) (line : CodeLine) :
    s.entry verbose line = (s.entry true line).shown verbose := by
  cases verbose <;> rfl

namespace FrameEntries

def shown (verbose : Bool) (es : FrameEntries) : FrameEntries :=
  es.map fun (id, e) => (id, e.shown verbose)

theorem shown_put (verbose : Bool) (id : Nat) (e : Entry) (es : FrameEntries) :
    shown verbose (put id e es) = put id (e.shown verbose) (shown verbose es) := by
  induction es with
  | nil => rfl
  | cons p rest ih =>
      obtain ⟨k, x⟩ := p
      simp only [put, shown, List.map_cons]
      split
      · rfl
      · split
        · rfl
        · exact congrArg _ ih

theorem shown_drop (verbose : Bool) (id : Nat) (es : FrameEntries) :
    shown verbose (drop id es) = drop id (shown verbose es) := by
  induction es with
  | nil => rfl
  | cons p rest ih =>
      obtain ⟨k, x⟩ := p
      simp only [drop, shown, List.map_cons]
      split
      · rfl
      · exact congrArg _ ih

theorem lookup_shown (verbose : Bool) (id : Nat) (es : FrameEntries) :
    (shown verbose es).lookup id = (es.lookup id).map (Entry.shown verbose) := by
  induction es with
  | nil => rfl
  | cons p rest ih =>
      obtain ⟨k, x⟩ := p
      simp only [shown, List.map_cons, List.lookup_cons]
      split
      · rfl
      · exact ih

end FrameEntries

/--
The journal shows the latest entries of `log`, which has the latest entry
first, and for the calls in progress those of `latest`.
-/
structure Journal.Shows (verbose : Bool) (limit : Nat) (log : List Entry)
    (latest : FrameEntries) (j : Journal) : Prop where
  limit_eq : j.kept.limit = limit
  kept : j.kept.latestFirst = (log.map (Entry.shown verbose)).take limit
  next : j.next = log.length
  latest : j.latest = latest.shown verbose

namespace Journal.Shows

variable {verbose : Bool} {limit : Nat} {log : List Entry} {latest : FrameEntries} {j : Journal}

theorem empty (verbose : Bool) (limit : Nat) :
    (Journal.empty limit).Shows verbose limit [] [] where
  limit_eq := rfl
  kept := by simp [Journal.empty]
  next := rfl
  latest := rfl

theorem add (h : j.Shows verbose limit log latest) (e : Entry) :
    (j.add (e.shown verbose)).Shows verbose limit (e :: log)
      (match e.frame with
        | some id => latest.put id e
        | none => latest) where
  limit_eq := (Window.limit_push _ _).trans h.limit_eq
  kept := by
    rw [Journal.add, Window.latestFirst_push, h.kept, h.limit_eq, List.map_cons]
    cases limit with
    | zero => rfl
    | succ n =>
        rw [List.take_succ_cons, List.take_succ_cons, List.take_take, Nat.min_eq_left n.le_succ]
  next := congrArg (· + 1) h.next
  latest := by
    simp only [Journal.add, Entry.frame_shown, h.latest]
    cases e.frame with
    | some id => exact (FrameEntries.shown_put _ _ _ _).symm
    | none => rfl

theorem dropFrame (h : j.Shows verbose limit log latest) (id : Nat) :
    (j.dropFrame id).Shows verbose limit log (latest.drop id) where
  limit_eq := h.limit_eq
  kept := h.kept
  next := h.next
  latest := by
    rw [Journal.dropFrame, h.latest]
    exact (FrameEntries.shown_drop _ _ _).symm

theorem latest?_eq (h : j.Shows verbose limit log latest) (hlimit : 0 < limit) :
    j.kept.latest? = log.head?.map (Entry.shown verbose) := by
  rw [Window.latest?, h.kept, List.head?_take, if_neg (Nat.ne_of_gt hlimit), List.head?_map]

end Journal.Shows

/-! ## Related states -/

/-- The states differ in what their journals show of one log, and in nothing else. -/
structure State.Alike (o o' : Options) (s s' : State) : Prop where
  store : s.store = s'.store
  ip : s.ip = s'.ip
  calls : s.calls = s'.calls
  nextFrame : s.nextFrame = s'.nextFrame
  exitCode : s.exitCode = s'.exitCode
  journal : ∃ log latest, s.journal.Shows o.verbose o.historyLimit log latest ∧
    s'.journal.Shows o'.verbose o'.historyLimit log latest

namespace Exec

variable {α β : Type}

inductive Result.Agree (S : State → State → Prop) :
    EStateM.Result Halt State α → EStateM.Result Halt State α → Prop
  | ok {a s s'} : S s s' → Agree S (.ok a s) (.ok a s')
  | error {e s s'} : S s s' → Agree S (.error e s) (.error e s')

end Exec

def Coupling.agreeing (S : State → State → Prop) : Coupling where
  Rel x y := ∀ s s', S s s' → Exec.Result.Agree S (x s) (y s')
  pure _ _ _ hs := .ok hs
  bind := by
    intro α β x y f g hxy hfg s s' hs
    have h := hxy s s' hs
    generalize hx : x s = r at h
    generalize hy : y s' = r' at h
    cases h with
    | ok ht =>
        rw [Exec.bind_of_ok hx, Exec.bind_of_ok hy]
        exact hfg _ _ _ ht
    | error ht =>
        rw [Exec.bind_of_error hx, Exec.bind_of_error hy]
        exact .error ht

namespace State.Alike

variable {o o' : Options}

theorem of_local {α : Type} {x : Exec α} (hx : Exec.Local x) :
    (Coupling.agreeing (Alike o o')).Rel x x := by
  intro s s' h
  have hctrl := hx.control_eq s
  have hs' : s' = s.withControl s'.control := eq_withControl_of_store_eq h.store.symm
  have hunder := hx.under s s'.control
  rw [← hs'] at hunder
  rw [hunder]
  have alike {t : State} (ht : t.control = s.control) :
      Alike o o' t (t.withControl s'.control) := by
    simp only [control, Control.mk.injEq] at ht
    obtain ⟨hip, hjournal, hcalls, hnext, hexit⟩ := ht
    exact ⟨rfl, hip.trans h.ip, hcalls.trans h.calls, hnext.trans h.nextFrame,
      hexit.trans h.exitCode, by rw [hjournal]; exact h.journal⟩
  cases hr : x s with
  | ok a t =>
      rw [hr] at hctrl
      exact .ok (alike hctrl)
  | error e t =>
      rw [hr] at hctrl
      exact .error (alike hctrl)

theorem recorded {s s' : State} (h : Alike o o' s s') (line : CodeLine) :
    Alike o o' (s.recorded o.verbose line) (s'.recorded o'.verbose line) := by
  obtain ⟨log, latest, hs, hs'⟩ := h.journal
  have hentry : s.entry true line = s'.entry true line := by
    have hsnap : s.snapshot = s'.snapshot := by
      have hvars : s.vars = s'.vars := congrArg Store.vars h.store
      have hmem : s.memory = s'.memory := congrArg Store.memory h.store
      rw [snapshot, snapshot, hvars, hmem]
    simp only [entry, frameId?, h.ip, h.calls, hs.next, hs'.next, hsnap]
  have hadd := hs.add (s.entry true line)
  have hadd' := hs'.add (s'.entry true line)
  rw [← entry_eq_shown] at hadd
  rw [← entry_eq_shown, ← hentry] at hadd'
  exact ⟨h.store, h.ip, h.calls, h.nextFrame, h.exitCode, _, _, hadd, hadd'⟩

theorem pushed {s s' : State} (h : Alike o o' s s') (f : String) (loc : Option Location) :
    Exec.Result.Agree (Alike o o') (Exec.pushFrame f loc s) (Exec.pushFrame f loc s') := by
  apply Exec.Result.Agree.ok
  exact ⟨h.store, h.ip, by simp only [h.calls, h.nextFrame], congrArg (· + 1) h.nextFrame,
    h.exitCode, h.journal⟩

theorem popped {s s' : State} (h : Alike o o' s s') :
    Exec.Result.Agree (Alike o o') (Exec.popFrame s) (Exec.popFrame s') := by
  apply Exec.Result.Agree.ok
  have hcalls := h.calls
  obtain ⟨log, latest, hs, hs'⟩ := h.journal
  cases hc : s.calls with
  | nil =>
      rw [hc] at hcalls
      simp only [hc, ← hcalls]
      exact h
  | cons f rest =>
      rw [hc] at hcalls
      simp only [hc, ← hcalls]
      exact ⟨h.store, h.ip, rfl, h.nextFrame, h.exitCode, _, _, hs.dropFrame f.id,
        hs'.dropFrame f.id⟩

theorem covers (p : Program) (hsink : o'.sink = o.sink) (hstrict : o'.strictArgs = o.strictArgs) :
    (Coupling.agreeing (Alike o o')).Covers p o o' where
  strict_eq := hstrict
  addressOf x _ := of_local (Exec.local_addressOf x)
  readWord a := of_local (Exec.local_readWord a)
  readByte a := of_local (Exec.local_readByte a)
  writeWord a v := of_local (Exec.local_writeWord a v)
  writeByte a v := of_local (Exec.local_writeByte a v)
  apply _ _ _ _ := of_local (.lift _)
  write text := by
    rw [hsink]
    exact of_local (Exec.local_write _ _)
  draw low high := of_local (Exec.local_draw low high)
  perform c _ := of_local (Exec.local_perform c)
  createSprite a w h color _ := Coupling.rel_createSprite _
    (fun _ _ => of_local (.get_bind (fun _ => .lift _) fun _ _ => rfl))
    (fun c => of_local (Exec.local_perform c)) a w h color
  refuse _ _ := of_local (.fail _)
  exit := of_local (.throw _)
  unfinished := of_local (.throw _)
  here s s' h := by
    change Exec.Result.Agree _ (.ok s.ip s) (.ok s'.ip s')
    rw [h.ip]
    exact .ok h
  jumpTo _ _ _ h := .ok ⟨h.store, rfl, h.calls, h.nextFrame, h.exitCode, h.journal⟩
  record line _ _ h := .ok (h.recorded line)
  pushFrame f loc _ _ h := h.pushed f loc
  popFrame _ _ h := h.popped

theorem start (p : Program) (o o' : Options) (canvas : Canvas) (generator : Generator) :
    Alike o o' (Machine.start ⟨p, o⟩ canvas generator).begun
      (Machine.start ⟨p, o'⟩ canvas generator).begun :=
  ⟨rfl, rfl, rfl, rfl, rfl, [], [], .empty _ _, .empty _ _⟩

theorem crashAt_eq {s s' : State} (h : Alike o o' s s') (hl : 0 < o.historyLimit)
    (hl' : 0 < o'.historyLimit) (f : Fault) : Machine.crashAt s f = Machine.crashAt s' f := by
  obtain ⟨log, latest, hs, hs'⟩ := h.journal
  rw [Machine.crashAt, Machine.crashAt, hs.latest?_eq hl, hs'.latest?_eq hl']
  cases log.head? <;> simp

theorem finish {s s' : State} (h : Alike o o' s s') (code : Nat) :
    Alike o o' (Machine.finish s code) (Machine.finish s' code) :=
  ⟨h.store, h.ip, rfl, h.nextFrame, rfl, h.journal⟩

theorem run {p : Program} (hsink : o'.sink = o.sink) (hstrict : o'.strictArgs = o.strictArgs)
    (hl : 0 < o.historyLimit) (hl' : 0 < o'.historyLimit) (canvas : Canvas)
    (generator : Generator) (fuel : Nat) :
    (Machine.run ⟨p, o⟩ fuel (Machine.start ⟨p, o⟩ canvas generator)).1 =
        (Machine.run ⟨p, o'⟩ fuel (Machine.start ⟨p, o'⟩ canvas generator)).1 ∧
      Alike o o' (Machine.run ⟨p, o⟩ fuel (Machine.start ⟨p, o⟩ canvas generator)).2
        (Machine.run ⟨p, o'⟩ fuel (Machine.start ⟨p, o'⟩ canvas generator)).2 := by
  have h := (covers p hsink hstrict).untilEnd fuel _ _ (start p o o' canvas generator)
  rw [Machine.run_eq, Machine.run_eq]
  change Exec.Result.Agree _ (Machine.loop ⟨p, o⟩ .top fuel _)
    (Machine.loop ⟨p, o'⟩ .top fuel _) at h
  generalize Machine.loop ⟨p, o⟩ .top fuel _ = r at h
  generalize Machine.loop ⟨p, o'⟩ .top fuel _ = r' at h
  cases h with
  | ok hs => exact ⟨rfl, hs.finish 0⟩
  | @error e s s' hs =>
      cases e with
      | fault f => exact ⟨congrArg Machine.Ending.crashed (hs.crashAt_eq hl hl' f), hs⟩
      | exit code => exact ⟨rfl, hs.finish code⟩
      | unfinished => exact ⟨rfl, hs⟩

end State.Alike

/-! ## Tracebacks -/

namespace Traceback

def frameLines (j : Journal) (f : Frame) : List String :=
  (TracebackFrame.ofFrame j f).placeLines ++ (TracebackFrame.ofFrame j f).entryLines false

theorem frameLines_shown {verbose : Bool} {limit : Nat} {log : List Entry}
    {latest : FrameEntries} {j : Journal} (h : j.Shows verbose limit log latest) (f : Frame) :
    frameLines j f = frameLines { j with latest := latest } f := by
  have hlookup : j.entryOf? f = (latest.lookup f.id).map (Entry.shown verbose) := by
    rw [Journal.entryOf?, h.latest]
    exact FrameEntries.lookup_shown _ _ _
  unfold frameLines TracebackFrame.ofFrame
  rw [hlookup]
  change _ = _ ++ _
  simp only [Journal.entryOf?]
  cases latest.lookup f.id with
  | none => rfl
  | some e => cases verbose <;> rfl

theorem frameLines_congr {j j' : Journal} (h : j.latest = j'.latest) :
    frameLines j = frameLines j' := by
  funext f
  simp only [frameLines, TracebackFrame.ofFrame, Journal.entryOf?, h]

theorem render_ofState (crash : Machine.Crash) (s : State) :
    (ofState crash s).render false = "\n".intercalate
      ("Traceback (most recent call last):" ::
        s.calls.reverse.flatMap (frameLines s.journal) ++ [verdict crash.fault]) := by
  simp only [render, ofState, List.flatMap_map]
  rfl

theorem render_eq_of_alike {o o' : Options} {s s' : State} (h : State.Alike o o' s s')
    (crash : Machine.Crash) :
    (ofState crash s).render false = (ofState crash s').render false := by
  obtain ⟨log, latest, hs, hs'⟩ := h.journal
  have hlines : frameLines s.journal = frameLines s'.journal := by
    funext f
    rw [frameLines_shown hs, frameLines_shown hs']
    exact congrFun (frameLines_congr rfl) f
  rw [render_ofState, render_ofState, h.calls, hlines]

end Traceback

/-! ## Snapshots -/

namespace State

def shownValue? (mem : Memory) : String × Nat → Option (String × Nat)
  | (x, a) => if a + 4 ≤ mem.size then some (x, mem.wordAt a) else none

theorem snapshot_eq (s : State) : s.snapshot = s.vars.filterMap (shownValue? s.memory) := by
  unfold snapshot
  congr 1
  funext ⟨x, a⟩
  by_cases h : a + 4 ≤ s.memory.size <;> simp [shownValue?, Memory.readWord_eq, h]

theorem lookup_filterMap_shownValue? (mem : Memory) {vars : Table}
    (h : (vars.map Prod.fst).Nodup) (x : String) (v : Nat) :
    (vars.filterMap (shownValue? mem)).lookup x = some v ↔
      ∃ a, vars.lookup x = some a ∧ a + 4 ≤ mem.size ∧ v = mem.wordAt a := by
  induction vars with
  | nil => simp
  | cons p rest ih =>
      obtain ⟨y, a⟩ := p
      obtain ⟨hy, hrest⟩ := List.nodup_cons.mp h
      have ih := ih hrest
      by_cases hxy : x = y
      · subst hxy
        rw [List.lookup_cons_self]
        by_cases hin : a + 4 ≤ mem.size
        · rw [List.filterMap_cons, shownValue?, if_pos hin]
          simp [hin, eq_comm]
        · rw [List.filterMap_cons, shownValue?, if_neg hin]
          rw [Table.lookup_eq_none_of_notMem hy] at ih
          simpa [hin] using ih
      · have hskip : ((y, a) :: rest).lookup x = rest.lookup x := by
          rw [List.lookup_cons, beq_false_of_ne hxy]
        rw [hskip, ← ih, List.filterMap_cons, shownValue?]
        by_cases hin : a + 4 ≤ mem.size
        · rw [if_pos hin]
          dsimp only
          rw [List.lookup_cons, beq_false_of_ne hxy]
        · rw [if_neg hin]

theorem lookup_snapshot {s : State} (h : (s.vars.map Prod.fst).Nodup) (x : String) (v : Nat) :
    s.snapshot.lookup x = some v ↔
      ∃ a, s.vars.lookup x = some a ∧ a + 4 ≤ s.memory.size ∧ v = s.memory.wordAt a := by
  rw [snapshot_eq]
  exact lookup_filterMap_shownValue? s.memory h x v

end State

/-! ## Runs -/

theorem Journal.Shows.toList_eq {verbose : Bool} {limit : Nat} {log : List Entry}
    {latest : FrameEntries} {j : Journal} (h : j.Shows verbose limit log latest) :
    j.kept.toList.map Entry.bare =
      (log.map Entry.bare).reverse.drop ((log.map Entry.bare).reverse.length - limit) := by
  have hbare : Entry.bare ∘ Entry.shown verbose = Entry.bare :=
    funext fun e => e.bare_shown verbose
  rw [Window.toList, h.kept, List.map_reverse, List.map_take, List.map_map, hbare,
    List.reverse_take, List.length_reverse]

namespace Machine

/--
Neither the values in the entries of a journal nor the number of entries kept
have an effect on anything else.  The journals show the latest entries of one
log, and the values that an entry shows are those of the state in which its
instruction was started.
-/
theorem observation_harmless {src : Source} {p : Program} (hload : Program.ofSource src = .ok p)
    {o o' : Options} (hsink : o'.sink = o.sink) (hstrict : o'.strictArgs = o.strictArgs)
    (hl : 0 < o.historyLimit) (hl' : 0 < o'.historyLimit) (canvas : Canvas)
    (generator : Generator) (fuel : Nat) :
    let s := Machine.start ⟨p, o⟩ canvas generator
    let r := Machine.run ⟨p, o⟩ fuel s
    let r' := Machine.run ⟨p, o'⟩ fuel (Machine.start ⟨p, o'⟩ canvas generator)
    r.1 = r'.1 ∧ r.2.store = r'.2.store ∧ r.2.ip = r'.2.ip ∧ r.2.calls = r'.2.calls ∧
      r.2.nextFrame = r'.2.nextFrame ∧ r.2.exitCode = r'.2.exitCode ∧
      r.2.journal.next = r'.2.journal.next ∧
      (∀ crash, (Traceback.ofState crash r.2).render false =
        (Traceback.ofState crash r'.2).render false) ∧
      (∃ log : List Entry, log.length = r.2.journal.next ∧
        r.2.journal.kept.toList.map Entry.bare = log.drop (log.length - o.historyLimit) ∧
        r'.2.journal.kept.toList.map Entry.bare = log.drop (log.length - o'.historyLimit)) ∧
      (o.verbose = true → ∀ e ∈ r.2.journal.kept.toList, ∃ k t line,
        Visits ⟨p, o⟩ .top s.begun k t ∧ Going ⟨p, o⟩ k t line ∧
        e = t.entry true line ∧ e.snapshot = some t.snapshot ∧
        ∀ x v, t.snapshot.lookup x = some v ↔
          ∃ a, t.vars.lookup x = some a ∧ a + 4 ≤ t.memory.size ∧ v = t.memory.wordAt a) := by
  intro s r r'
  obtain ⟨hend, halike⟩ := State.Alike.run (p := p) hsink hstrict hl hl' canvas generator fuel
  obtain ⟨log, latest, hs, hs'⟩ := halike.journal
  refine ⟨hend, halike.store, halike.ip, halike.calls, halike.nextFrame, halike.exitCode,
    hs.next.trans hs'.next.symm, fun crash => Traceback.render_eq_of_alike halike crash,
    ⟨(log.map Entry.bare).reverse, ?_, ?_, ?_⟩, ?_⟩
  · rw [List.length_reverse, List.length_map, hs.next]
  · exact hs.toList_eq
  · exact hs'.toList_eq
  · intro hverbose e he
    obtain ⟨k, t, line, hvisit, hgo, rfl⟩ := kept_of_run fuel canvas generator e he
    dsimp only at hvisit hgo ⊢
    rw [hverbose]
    refine ⟨k, t, line, hvisit, hgo, rfl, rfl, fun x v => ?_⟩
    obtain ⟨names, -, hlaid⟩ := State.laidOut_of_leads (.trans .begun (.visit hvisit))
    exact State.lookup_snapshot (hlaid.nodup_keys (Program.nodup_dataLabels hload)) x v

theorem tally_observed :
    let plain : Machine := ⟨tally.program, {}⟩
    let watched : Machine := ⟨tally.program, { verbose := true, historyLimit := 1 }⟩
    ∀ canvas generator fuel,
      (watched.run fuel (watched.start canvas generator)).1 =
        (plain.run fuel (plain.start canvas generator)).1 ∧
      (watched.run fuel (watched.start canvas generator)).2.store =
        (plain.run fuel (plain.start canvas generator)).2.store := by
  intro plain watched canvas generator fuel
  have hload : Program.ofSource tally = .ok tally.program := by rfl
  have hsink : plain.options.sink = watched.options.sink := rfl
  have hstrict : plain.options.strictArgs = watched.options.strictArgs := rfl
  obtain ⟨hend, hstore, -⟩ := observation_harmless hload hsink hstrict (by decide) (by decide)
    canvas generator fuel
  exact ⟨hend, hstore⟩

end Machine

end BrownLang
