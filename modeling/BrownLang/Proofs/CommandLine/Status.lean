import BrownLang.CommandLine.Execution
import BrownLang.Proofs.Execution.Fuel
import BrownLang.Proofs.Execution.Halting
import BrownLang.Proofs.Loading.Redefinition

/-!
# The status of the command line

The command line answers with the status zero if it has done what it was asked
for.  Otherwise it answers with the status one and a report; or it gives no
answer, when the file of the program holds no text, the text a number that the
host does not convert, or a run cannot be set up.
-/

namespace BrownLang

theorem Machine.code_of_exited {m : Machine} {fuel code : Nat} {s : State}
    (h : (m.run fuel s).1 = .exited code) : code = 0 := by
  have hcovers : (Coupling.halting fun h => ∀ c, h = .exit c → c = 0).Covers m.program m.options
      m.options :=
    covers_halting (fun _ _ _ h => nomatch h) (fun c h => by injection h with h; exact h.symm)
      fun _ h => nomatch h
  rw [run_eq] at h
  split at h
  case h_1 =>
    injection h with h
    exact h.symm
  case h_2 c t heq =>
    injection h with h
    exact h ▸ (hcovers.untilEnd fuel).2 _ _ t heq c rfl
  all_goals exact nomatch h

namespace CommandLine

/-! ## What is asked for -/

namespace Settings

variable (s : Settings) (host : Host)

def machine (p : Program) : Machine :=
  ⟨p, { verbose := s.verbose, strictArgs := s.strictArgs }⟩

def initial (p : Program) : State :=
  let store :=
    match s.frames with
    | some dir => FrameStore.kept dir []
    | none => .off
  (s.machine p).start (.ofScreen (.standard store)) (host.generator (s.seed.map Int.toNat))

def NoText : Prop :=
  s.literal = false ∧ ∃ contents, host.entry s.program = .file contents ∧
    String.fromUTF8? contents = none

/-- The program can be read, and then this comes of parsing it. -/
def Parsed (result : Except SyntaxError Source) : Prop :=
  ∃ p, s.readProgram host = .ok p ∧ Source.parse p.name p.text = result

def Parses (source : Source) : Prop := s.Parsed host (.ok source)

def Loads (p : Program) : Prop := ∃ source, s.Parses host source ∧ Program.ofSource source = .ok p

def NegativeSeed : Prop := ∃ k, s.seed = some (.negSucc k)

/-- What was asked for can be done; a program that is run comes to its end. -/
def Succeeds (fuel : Nat) : Prop :=
  match s.mode with
  | .ast | .astPretty | .ir => ∃ source, s.Parses host source
  | .data => ∃ source, s.Parses host source ∧ source.dataNames.Nodup
  | .run => ∃ p, s.Loads host p ∧
      ∃ code, ((s.machine p).run fuel (s.initial host p)).1 = .exited code

/--
There is an answer: the program's file, if it is there, holds text, the host
converts all numbers up to the first error in it, and a run is set up and ends.
-/
structure Answered (fuel : Nat) : Prop where
  text : ¬ s.NoText host
  numbers : ¬ s.Parsed host (.error .tooManyDigits)
  run : s.mode = .run → ∀ p, s.Loads host p → s.directoryError host = none ∧ ¬ s.NegativeSeed ∧
    ((s.machine p).run fuel (s.initial host p)).1 ≠ .unfinished

end Settings

/-- The reply tells whether there was success, by its status and by its report. -/
def Reply.Tells (r : Reply) (success : Prop) : Prop :=
  success ∧ r.status = 0 ∧ r.err = "" ∨ ¬ success ∧ r.status = 1 ∧ r.err ≠ ""

theorem Reply.tells_success {success : Prop} (h : success) (out : String) :
    (Reply.success out).Tells success :=
  .inl ⟨h, rfl, rfl⟩

theorem Reply.tells_failure {success : Prop} (h : ¬ success) (out : String) {err : String}
    (herr : err ≠ "") : (Reply.failure out err).Tells success :=
  .inr ⟨h, rfl, herr⟩

theorem faultLine_ne_empty (f : Fault) : faultLine f ≠ "" := by
  simp [faultLine, toString]

/-! ## Showing a program -/

theorem tells_showData (source : Source) : (showData source).Tells source.dataNames.Nodup := by
  unfold showData
  cases hdata : DataSegment.ofItems source.data with
  | error x =>
      have hrepeat := DataSegment.ofItems_eq_error_iff.mp hdata
      exact Reply.tells_failure hrepeat.not_nodup _ (faultLine_ne_empty _)
  | ok d =>
      refine Reply.tells_success ?_ _
      by_contra hnodup
      obtain ⟨x, hx⟩ := FirstRepeat.exists_of_not_nodup hnodup
      exact nomatch hdata.symm.trans (DataSegment.ofItems_eq_error_iff.mpr hx)

/-! ## Running a program -/

namespace Settings

variable (s : Settings) {host : Host} {fuel : Nat} {p : Program}

theorem runProgram_eq (host : Host) (fuel : Nat) (p : Program) :
    s.runProgram host fuel p =
      let (ending, last) := (s.machine p).run fuel (s.initial host p)
      let saved := s.frames.map fun dir => SavedFrames.mk dir last.canvas.screen.savedFrames
      match ending with
      | .exited code => .replied ⟨code, last.output, "", saved⟩
      | .crashed crash => .replied (crashReply s last.output (.ofState crash last) saved)
      | .unfinished => .unfinished := rfl

theorem crash_ne_empty (out : String) (t : Traceback) (saved : Option SavedFrames) :
    (crashReply s out t saved).err ≠ "" := by
  simp [crashReply]

theorem tells_runProgram (host : Host) (fuel : Nat) (p : Program) :
    (s.runProgram host fuel p = .unfinished ∧
      ((s.machine p).run fuel (s.initial host p)).1 = .unfinished) ∨
    ((s.machine p).run fuel (s.initial host p)).1 ≠ .unfinished ∧
      ∃ r, s.runProgram host fuel p = .replied r ∧
        r.Tells (∃ code, ((s.machine p).run fuel (s.initial host p)).1 = .exited code) := by
  rw [runProgram_eq]
  cases hrun : (s.machine p).run fuel (s.initial host p) with
  | mk ending last =>
      cases ending with
      | exited code =>
          have hcode := Machine.code_of_exited (congrArg Prod.fst hrun)
          exact .inr ⟨nofun, _, rfl, .inl ⟨⟨code, rfl⟩, hcode, rfl⟩⟩
      | crashed crash =>
          refine .inr ⟨nofun, _, rfl, .inr ⟨?_, rfl, s.crash_ne_empty _ _ _⟩⟩
          exact fun ⟨_, h⟩ => nomatch h
      | unfinished => exact .inl ⟨rfl, rfl⟩

theorem runProgram_of_le {fuel' : Nat} (hle : fuel ≤ fuel')
    (hended : ((s.machine p).run fuel (s.initial host p)).1 ≠ .unfinished) :
    s.runProgram host fuel' p = s.runProgram host fuel p := by
  rw [runProgram_eq, runProgram_eq, Machine.run_of_le _ hle hended]

theorem start_of_no_directory {e : SystemError} (h : s.directoryError host = some e) :
    s.start host fuel p = .failed (.noDirectory e) := by
  rw [start, h]

theorem start_of_negative (hdir : s.directoryError host = none) (h : s.NegativeSeed) :
    s.start host fuel p = .failed .negativeSeed := by
  obtain ⟨k, h⟩ := h
  rw [start, hdir, h]

theorem start_of_ready (hdir : s.directoryError host = none) (hseed : ¬ s.NegativeSeed) :
    s.start host fuel p = s.runProgram host fuel p := by
  rw [start, hdir]
  split
  next heq => cases heq
  next k _ hk => exact absurd ⟨k, hk⟩ hseed
  next => rfl

/-! ## Reading and parsing a program -/

variable {s}

theorem Parsed.unique {result result' : Except SyntaxError Source} (h : s.Parsed host result)
    (h' : s.Parsed host result') : result = result' := by
  obtain ⟨p, hread, rfl⟩ := h
  obtain ⟨p', hread', rfl⟩ := h'
  cases hread.symm.trans hread'
  rfl

theorem Parsed.not_noText {result : Except SyntaxError Source} (h : s.Parsed host result) :
    ¬ s.NoText host := by
  obtain ⟨p, hread, -⟩ := h
  rintro ⟨hliteral, contents, hfile, htext⟩
  simp [readProgram, hliteral, hfile, htext] at hread

theorem Parses.unique {source source' : Source} (h : s.Parses host source)
    (h' : s.Parses host source') : source = source' :=
  Except.ok.inj (Parsed.unique h h')

theorem Parses.converted {source : Source} (h : s.Parses host source) :
    ¬ s.Parsed host (.error .tooManyDigits) :=
  fun h' => nomatch Parsed.unique h h'

theorem Parses.loads_iff {source : Source} (h : s.Parses host source) :
    s.Loads host p ↔ Program.ofSource source = .ok p := by
  constructor
  · rintro ⟨source', hsource', hload⟩
    rwa [h.unique hsource']
  · exact fun hload => ⟨source, h, hload⟩

theorem execute_of_parses {source : Source} (h : s.Parses host source) :
    s.execute host fuel = match s.mode with
      | .ast => .replied (.success (source.codeTree.inline ++ "\n"))
      | .astPretty => .replied (.success (source.codeTree.layout 0 0 ++ "\n"))
      | .data => .replied (showData source)
      | .ir => .replied (.success ((Code.ofBlock source.code).listing ++ "\n"))
      | .run =>
        match Program.ofSource source with
        | .error x => .replied (.failure "" (faultLine (.labelRedefined x)))
        | .ok program => s.start host fuel program := by
  obtain ⟨p, hread, hparse⟩ := h
  simp only [execute, hread]
  unfold process
  split
  next e herror => exact nomatch herror.symm.trans hparse
  next source' hsource =>
    cases hsource.symm.trans hparse
    rfl

theorem execute_of_error {e : SyntaxError} (fuel : Nat) (h : s.Parsed host (.error e)) :
    e = .tooManyDigits ∧ s.execute host fuel = .failed .tooManyDigits ∨
      e ≠ .tooManyDigits ∧ ∃ err, err ≠ "" ∧
        s.execute host fuel = .replied (.failure "" err) := by
  obtain ⟨p, hread, hparse⟩ := h
  simp only [execute, hread, process, hparse]
  cases e with
  | scan | parse => exact .inr ⟨nofun, _, by simp [toString], rfl⟩
  | tooManyDigits => exact .inl ⟨rfl, rfl⟩

theorem execute_of_unread {o : Outcome} (fuel : Nat) (h : s.readProgram host = .error o) :
    s.NoText host ∧ s.execute host fuel = .failed .notText ∨
      ¬ s.NoText host ∧ ∃ err, err ≠ "" ∧
        s.execute host fuel = .replied (.failure "" err) := by
  have hexecute : s.execute host fuel = o := by simp only [execute, h]
  rw [hexecute]
  unfold readProgram at h
  split at h
  next => exact nomatch h
  next hliteral =>
    split at h
    next e hfile =>
      cases h
      refine .inr ⟨?_, _, ?_, rfl⟩
      · rintro ⟨-, contents, hfile', -⟩
        exact nomatch hfile.symm.trans hfile'
      · simp [toString]
    next contents hfile =>
      split at h
      next => exact nomatch h
      next htext =>
        cases h
        exact .inl ⟨⟨by simpa using hliteral, contents, hfile, htext⟩, rfl⟩

theorem execute_of_not_parses (fuel : Nat) (h : ∀ source, ¬ s.Parses host source) :
    (s.NoText host ∨ s.Parsed host (.error .tooManyDigits)) ∧
        (∀ r, s.execute host fuel ≠ .replied r) ∨
      ¬ s.NoText host ∧ ¬ s.Parsed host (.error .tooManyDigits) ∧ ∃ err, err ≠ "" ∧
        s.execute host fuel = .replied (.failure "" err) := by
  cases hread : s.readProgram host with
  | ok p =>
      cases hparse : Source.parse p.name p.text with
      | ok source => exact absurd ⟨p, hread, hparse⟩ (h source)
      | error e =>
          have hparsed : s.Parsed host (.error e) := ⟨p, hread, hparse⟩
          rcases execute_of_error fuel hparsed with ⟨rfl, hexecute⟩ | ⟨hne, hreply⟩
          · exact .inl ⟨.inr hparsed, by simp [hexecute]⟩
          · refine .inr ⟨hparsed.not_noText, fun h' => hne ?_, hreply⟩
            exact Except.error.inj (hparsed.unique h')
  | error o =>
      have hunparsed : ¬ s.Parsed host (.error .tooManyDigits) := fun ⟨_, hread', _⟩ =>
        nomatch hread.symm.trans hread'
      rcases execute_of_unread fuel hread with ⟨htext, hexecute⟩ | ⟨htext, hreply⟩
      · exact .inl ⟨.inl htext, by simp [hexecute]⟩
      · exact .inr ⟨htext, hunparsed, hreply⟩

/-! ## The answer -/

theorem parses_of_succeeds (h : s.Succeeds host fuel) :
    ∃ source, s.Parses host source := by
  unfold Succeeds at h
  split at h
  case h_4 =>
    obtain ⟨source, hsource, -⟩ := h
    exact ⟨source, hsource⟩
  case h_5 =>
    obtain ⟨p, ⟨source, hsource, -⟩, -⟩ := h
    exact ⟨source, hsource⟩
  all_goals exact h

theorem start_tells {source : Source} (hsource : s.Parses host source) (hmode : s.mode = .run)
    (hload : Program.ofSource source = .ok p) :
    s.Answered host fuel ∧
        (∃ r, s.start host fuel p = .replied r ∧
          r.Tells (s.Succeeds host fuel)) ∨
      ¬ s.Answered host fuel ∧ ∀ r, s.start host fuel p ≠ .replied r := by
  have hloads : s.Loads host p := hsource.loads_iff.mpr hload
  have honly {p' : Program} (h : s.Loads host p') : p' = p := by
    cases (hsource.loads_iff.mp h).symm.trans hload
    rfl
  by_cases hdir : s.directoryError host = none
  case neg =>
    obtain ⟨e, he⟩ := Option.ne_none_iff_exists'.mp hdir
    rw [s.start_of_no_directory he]
    exact .inr ⟨fun h => hdir (h.run hmode p hloads).1, nofun⟩
  by_cases hseed : s.NegativeSeed
  · rw [s.start_of_negative hdir hseed]
    exact .inr ⟨fun h => (h.run hmode p hloads).2.1 hseed, nofun⟩
  rw [s.start_of_ready hdir hseed]
  rcases s.tells_runProgram host fuel p with ⟨heq, hunfinished⟩ | ⟨hended, r, heq, htells⟩
  · rw [heq]
    exact .inr ⟨fun h => (h.run hmode p hloads).2.2 hunfinished, nofun⟩
  · left
    refine ⟨⟨hsource.not_noText, hsource.converted, fun _ p' hp' => ?_⟩, r, heq, ?_⟩
    · rw [honly hp']
      exact ⟨hdir, hseed, hended⟩
    · have hsucceeds : s.Succeeds host fuel ↔
          ∃ code, ((s.machine p).run fuel (s.initial host p)).1 = .exited code := by
        simp only [Succeeds, hmode]
        constructor
        · rintro ⟨p', hp', hcode⟩
          rwa [honly hp'] at hcode
        · exact fun hcode => ⟨p, hloads, hcode⟩
      rwa [hsucceeds]

theorem execute_tells (s : Settings) (host : Host) (fuel : Nat) :
    s.Answered host fuel ∧
        (∃ r, s.execute host fuel = .replied r ∧
          r.Tells (s.Succeeds host fuel)) ∨
      ¬ s.Answered host fuel ∧ ∀ r, s.execute host fuel ≠ .replied r := by
  by_cases hparses : ∃ source, s.Parses host source
  · obtain ⟨source, hsource⟩ := hparses
    have hshown (hmode : s.mode ≠ .run) : s.Answered host fuel :=
      ⟨hsource.not_noText, hsource.converted, fun h => absurd h hmode⟩
    rw [execute_of_parses hsource]
    cases hmode : s.mode with
    | ast | astPretty | ir =>
        refine .inl ⟨hshown (by simp [hmode]), _, rfl, Reply.tells_success ?_ _⟩
        simp only [Succeeds, hmode]
        exact ⟨source, hsource⟩
    | data =>
        refine .inl ⟨hshown (by simp [hmode]), _, rfl, ?_⟩
        have hsucceeds : s.Succeeds host fuel ↔ source.dataNames.Nodup := by
          simp only [Succeeds, hmode]
          constructor
          · rintro ⟨source', hsource', hnodup⟩
            rwa [hsource.unique hsource']
          · exact fun hnodup => ⟨source, hsource, hnodup⟩
        rw [hsucceeds]
        exact tells_showData source
    | run =>
        cases hload : Program.ofSource source with
        | ok p => exact start_tells hsource hmode hload
        | error x =>
            have hnone (p : Program) : ¬ s.Loads host p := fun h =>
              nomatch hload.symm.trans (hsource.loads_iff.mp h)
            refine .inl ⟨⟨hsource.not_noText, hsource.converted,
              fun _ p hp => absurd hp (hnone p)⟩, _, rfl, ?_⟩
            refine Reply.tells_failure (fun h => ?_) _ (faultLine_ne_empty _)
            simp only [Succeeds, hmode] at h
            obtain ⟨p, hp, -⟩ := h
            exact hnone p hp
  · have hnone (source : Source) : ¬ s.Parses host source := fun h => hparses ⟨source, h⟩
    rcases execute_of_not_parses fuel hnone with
      ⟨hgiven, hexecute⟩ | ⟨htext, hnumbers, err, herr, hexecute⟩
    · exact .inr ⟨fun h => hgiven.elim h.text h.numbers, hexecute⟩
    · rw [hexecute]
      refine .inl ⟨⟨htext, hnumbers, fun _ p hp => ?_⟩, _, rfl, ?_⟩
      · obtain ⟨source, hsource, -⟩ := hp
        exact absurd hsource (hnone source)
      · exact Reply.tells_failure (fun h => hparses (parses_of_succeeds h)) _ herr

theorem execute_congr {host' : Host} {fuel' : Nat} (hentry : host'.entry = host.entry)
    (h : s.mode = .run → ∀ p, s.Loads host p →
      s.start host' fuel' p = s.start host fuel p) :
    s.execute host' fuel' = s.execute host fuel := by
  have hread' : s.readProgram host' = s.readProgram host := by
    simp only [readProgram, hentry]
  cases hread : s.readProgram host with
  | error o => simp only [execute, hread', hread]
  | ok p =>
      cases hparse : Source.parse p.name p.text with
      | error e => simp only [execute, hread', hread, process, hparse]
      | ok source =>
          have hsource : s.Parses host source := ⟨p, hread, hparse⟩
          have hsource' : s.Parses host' source := ⟨p, hread'.trans hread, hparse⟩
          rw [execute_of_parses hsource, execute_of_parses hsource']
          split
          case h_5 hmode =>
            split
            next => rfl
            next program hload => exact h hmode program (hsource.loads_iff.mpr hload)
          all_goals rfl

theorem execute_of_le {fuel' : Nat} (hle : fuel ≤ fuel') (h : s.Answered host fuel) :
    s.execute host fuel' = s.execute host fuel := by
  refine execute_congr rfl fun hmode p hp => ?_
  obtain ⟨hdir, hseed, hended⟩ := h.run hmode p hp
  rw [s.start_of_ready hdir hseed, s.start_of_ready hdir hseed, s.runProgram_of_le hle hended]

end Settings

/--
If there is an answer, its status is zero and its report is empty, or its
status is one and its report is not, as what was asked for has succeeded or
failed.  There is an answer unless the file of the program holds no text, the
host does not convert a number in the text, or a run has no place for its
frames, a negative seed, or no end.  To show a program is not to run it.
-/
theorem status_tells_success {args : List String} {s : Settings}
    (hs : Settings.ofArguments args = .ok s) (host : Host) (fuel : Nat) :
    ((∃ r, run args host fuel = .replied r) ↔ s.Answered host fuel) ∧
    (∀ r, run args host fuel = .replied r →
      r.Tells (s.Succeeds host fuel) ∧
      ∀ fuel' ≥ fuel, run args host fuel' = .replied r) ∧
    (s.mode ≠ .run → ∀ (host' : Host) (fuel' : Nat), host'.entry = host.entry →
      run args host' fuel' = run args host fuel) := by
  have hrun (host fuel) : run args host fuel = s.execute host fuel := by
    rw [run, hs]
  simp only [hrun]
  refine ⟨?_, fun r hr => ?_, fun hmode host' fuel' hentry => ?_⟩
  · rcases s.execute_tells host fuel with ⟨hanswered, r, hr, -⟩ | ⟨hnot, hnone⟩
    · exact ⟨fun _ => hanswered, fun _ => ⟨r, hr⟩⟩
    · exact ⟨fun ⟨r, hr⟩ => absurd hr (hnone r), fun h => absurd h hnot⟩
  · rcases s.execute_tells host fuel with ⟨hanswered, r', hr', htells⟩ | ⟨-, hnone⟩
    · cases hr.symm.trans hr'
      exact ⟨htells, fun fuel' hle => (Settings.execute_of_le hle hanswered).trans hr⟩
    · exact absurd hr (hnone r)
  · exact Settings.execute_congr hentry fun h => absurd h hmode

def division : Source where
  data := []
  code := [.assign (.var "x") (.bin (.known .div) (.lit 1) (.lit 0))
    (some ⟨"<string>", 1, 1, "1 / 0 -> x"⟩)]

def division.program : Program where
  code := (Code.ofBlock division.code).toArray
  data := []
  labels := []
  dataLabels := []

def division.settings : Settings :=
  { Settings.plain "1 / 0 -> x" with literal := true, seed := some 5 }

def bare : Host := ⟨fun _ => .missing, fun _ => none, fun _ => .scripted [] []⟩

theorem division_status :
    Settings.ofArguments ["-source", "--seed=5", "1 / 0 -> x"] = .ok division.settings ∧
    ∃ r, run ["-source", "--seed=5", "1 / 0 -> x"] bare 9 = .replied r ∧
      r.status = 1 ∧ r.err ≠ "" := by
  have hseed : ¬ division.settings.NegativeSeed := fun ⟨_, h⟩ => nomatch h
  have hs : Settings.ofArguments ["-source", "--seed=5", "1 / 0 -> x"] =
      .ok division.settings := by decide +kernel
  have hparse : Source.parse "<string>" "1 / 0 -> x" = .ok division := by cbv
  have hload : Program.ofSource division = .ok division.program := by rfl
  have hcrash : ((division.settings.machine division.program).run 9
      (division.settings.initial bare division.program)).1 =
        .crashed ⟨.divisionByZero, some ⟨"<string>", 1, 1, "1 / 0 -> x"⟩, some 0⟩ := by
    decide +kernel
  have hsource : division.settings.Parses bare division := ⟨_, rfl, hparse⟩
  have honly (p : Program) (hp : division.settings.Loads bare p) : p = division.program := by
    cases (hsource.loads_iff.mp hp).symm.trans hload
    rfl
  have hanswered : division.settings.Answered bare 9 := by
    refine ⟨hsource.not_noText, hsource.converted, fun _ p hp => ⟨rfl, hseed, ?_⟩⟩
    simp [honly p hp, hcrash]
  obtain ⟨hiff, htells, -⟩ := status_tells_success hs bare 9
  obtain ⟨r, hr⟩ := hiff.mpr hanswered
  refine ⟨hs, r, hr, ?_⟩
  rcases (htells r hr).1 with ⟨⟨p, hp, code, hcode⟩, -⟩ | ⟨-, hstatus⟩
  · rw [honly p hp, hcrash] at hcode
    cases hcode
  · exact hstatus

def noText : ByteArray := ⟨#[0xff]⟩

theorem not_always_answered : ¬ ∀ (args : List String) (s : Settings) (host : Host) (fuel : Nat),
    Settings.ofArguments args = .ok s → run args host fuel ≠ .unfinished →
      ∃ r, run args host fuel = .replied r ∧ (r.status = 0 ∨ r.status = 1) := by
  intro h
  let host : Host := { bare with entry := fun _ => .file noText }
  have hs : Settings.ofArguments ["bad.brown"] = .ok (.plain "bad.brown") := by
    decide +kernel
  have htext : String.fromUTF8? noText = none := by decide +kernel
  have hrun : run ["bad.brown"] host 0 = .failed .notText := by
    simp [run, hs, Settings.execute, Settings.readProgram, Settings.plain, host, htext]
  obtain ⟨r, hr, -⟩ := h _ _ host 0 hs (by simp [hrun])
  cases hrun.symm.trans hr

end CommandLine

end BrownLang
