import BrownLang.Machine.Run
import BrownLang.Report.Json

/-!
# Tracebacks

A traceback shows the calls that were in progress when a program crashed, the
outermost first, and for each the latest instruction that was executed in it.
-/

namespace BrownLang

structure TracebackFrame where
  name : String
  loc : Option Location
  entry : Option Entry
  deriving Repr

namespace TracebackFrame

/-- The frame of a call; one without an entry is where it was called. -/
def ofFrame (j : Journal) (f : Frame) : TracebackFrame :=
  match j.entryOf? f with
  | some e => ⟨f.name, e.loc, some e⟩
  | none => ⟨f.name, f.callLoc, none⟩

def placeLines (f : TracebackFrame) : List String :=
  match f.loc with
  | some loc =>
    s!"  File \"{loc.file}\", line {loc.line}, in {f.name}" ::
      if loc.statement.isEmpty then [] else ["    " ++ loc.statement]
  | none => [s!"  <unknown location> in {f.name}"]

def entryLines (verbose : Bool) (f : TracebackFrame) : List String :=
  match f.entry with
  | none => []
  | some e =>
    s!"    State log index: {e.step}  ip: {e.ip}  ({e.rule})" ::
      match verbose, e.snapshot with
      | true, some values =>
        let shown := ", ".intercalate (values.map fun (x, v) => s!"{x}={v}")
        ["    Memory snapshot: " ++ shown]
      | _, _ => []

def toJson (index : Nat) (f : TracebackFrame) : Json :=
  let place :=
    match f.loc with
    | some loc =>
      [("source_location",
        .obj [("file", .str loc.file), ("line", .num loc.line),
          ("statement", .str loc.statement)])]
    | none => []
  let entry :=
    match f.entry with
    | some e =>
      [("state_id", .str e.label), ("step_index", .num e.step), ("ip", .num e.ip),
        ("rule", .str e.rule)] ++
        match e.snapshot with
        | some values => [("memory_snapshot", .obj (values.map fun (x, v) => (x, .num v)))]
        | none => []
    | none => []
  .obj ([("frame_index", .num index), ("name", .str f.name)] ++ place ++ entry)

end TracebackFrame

structure Traceback where
  crash : Machine.Crash
  frames : List TracebackFrame

namespace Traceback

def ofState (crash : Machine.Crash) (s : State) : Traceback :=
  ⟨crash, s.calls.reverse.map (TracebackFrame.ofFrame s.journal)⟩

/-- The last line: what went wrong.  A rule without a name counts as a rule of running programs. -/
def verdict (f : Fault) : String :=
  let rule := if f.rule.isEmpty then "runtime" else f.rule
  s!"{f.title}: {f.message} (rule: {rule})"

def render (verbose : Bool) (t : Traceback) : String :=
  let calls := t.frames.flatMap fun f => f.placeLines ++ f.entryLines verbose
  "\n".intercalate ("Traceback (most recent call last):" :: calls ++ [verdict t.crash.fault])

def framesFrom (i : Nat) : List TracebackFrame → List Json
  | [] => []
  | f :: rest => f.toJson i :: framesFrom (i + 1) rest

def toJson (t : Traceback) : Json :=
  let fault := t.crash.fault
  .obj [
    ("error", .obj [
      ("type", .str fault.title),
      ("message", .str fault.message),
      ("rule", .str fault.rule),
      ("failing_step_index", (t.crash.step.map Json.num).getD .null)]),
    ("traceback", .arr (framesFrom 0 t.frames))]

end Traceback

end BrownLang
