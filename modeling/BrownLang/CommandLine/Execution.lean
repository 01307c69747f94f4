import BrownLang.CommandLine.Arguments
import BrownLang.Instr.Listing
import BrownLang.Report.Dump
import BrownLang.Report.Traceback
import BrownLang.Source.Parse

/-!
# What the command line does

The program is read from a file, or is the operand itself.  It is shown in one
of its forms, or run.  All this is a function of the settings and of the host,
which has files and random numbers.

The stack of the host has no end here.
-/

namespace BrownLang.CommandLine

structure SystemError where
  code : Nat
  reason : String
  deriving DecidableEq, Repr

inductive FileEntry where
  | file (contents : ByteArray)
  | unreadable (e : SystemError)

def FileEntry.missing : FileEntry := .unreadable ⟨2, "No such file or directory"⟩

def FileEntry.directory : FileEntry := .unreadable ⟨21, "Is a directory"⟩

structure Host where
  entry : String → FileEntry
  /-- The error in making a directory; there is none if it is there already. -/
  directoryError : String → Option SystemError
  /-- The random numbers for a seed, or for none. -/
  generator : Option Nat → Generator

structure SavedFrames where
  /-- The empty name is that of the working directory. -/
  directory : String
  frames : List (Nat × Image)

structure Reply where
  status : Nat
  out : String
  err : String
  saved : Option SavedFrames := none

inductive Mishap where
  | notText
  | tooManyDigits
  | noDirectory (e : SystemError)
  | negativeSeed
  deriving DecidableEq, Repr

inductive Outcome where
  | replied (r : Reply)
  | refused (u : Usage)
  | failed (m : Mishap)
  | unfinished

def Reply.success (out : String) : Reply := ⟨0, out, "", none⟩

def Reply.failure (out err : String) : Reply := ⟨1, out, err, none⟩

def literalName : String := "<string>"

structure ProgramText where
  name : String
  text : String

def unreadable (name : String) (e : SystemError) : Reply :=
  .failure "" s!"Failed to read {name}: [Errno {e.code}] {e.reason}: {Text.quoted name}\n"

/-- Reads the program.  In a file all line ends count as line feeds. -/
def Settings.readProgram (s : Settings) (host : Host) : Except Outcome ProgramText :=
  if s.literal then .ok ⟨literalName, s.program⟩
  else
    match host.entry s.program with
    | .unreadable e => .error (.replied (unreadable s.program e))
    | .file contents =>
      match String.fromUTF8? contents with
      | some text => .ok ⟨s.program, String.ofList (Text.unifyLineEnds text.toList)⟩
      | none => .error (.failed .notText)

def faultLine (f : Fault) : String := s!"{f.title}: {f.message}\n"

/-! ## Showing a program -/

def hexBytes (bs : List UInt8) : String :=
  if bs.isEmpty then "(empty)"
  else " ".intercalate (bs.map fun b => Text.hexadecimal 2 b.toNat)

def showData (s : Source) : Reply :=
  let items := s.dataTree.layout 0 0 ++ "\n"
  match DataSegment.ofItems s.data with
  | .error x => .failure items (faultLine (.labelRedefined x))
  | .ok d =>
    let labels := d.labels.map fun (x, n) => s!"  {x} = {n}\n"
    .success (items ++ s!"data: {hexBytes d.bytes}\n" ++ String.join labels)

/-! ## Running a program -/

def crashReply (s : Settings) (out : String) (t : Traceback) (saved : Option SavedFrames) :
    Reply :=
  let text := t.render s.verbose ++ "\n"
  let json := if s.tracebackJson then t.toJson.render 0 ++ "\n" else ""
  ⟨1, out, text ++ json, saved⟩

def Settings.runProgram (s : Settings) (host : Host) (fuel : Nat) (p : Program) : Outcome :=
  let store :=
    match s.frames with
    | some dir => FrameStore.kept dir []
    | none => .off
  let m : Machine := ⟨p, { verbose := s.verbose, strictArgs := s.strictArgs }⟩
  let generator := host.generator (s.seed.map Int.toNat)
  let (ending, last) := m.run fuel (m.start (.ofScreen (.standard store)) generator)
  let saved := s.frames.map fun dir => SavedFrames.mk dir last.canvas.screen.savedFrames
  match ending with
  | .exited code => .replied ⟨code, last.output, "", saved⟩
  | .crashed crash => .replied (crashReply s last.output (.ofState crash last) saved)
  | .unfinished => .unfinished

/-- The error in making the directory for frames.  The working directory is not made. -/
def Settings.directoryError (s : Settings) (host : Host) : Option SystemError :=
  (s.frames.filter (· ≠ "")).bind host.directoryError

def Settings.start (s : Settings) (host : Host) (fuel : Nat) (p : Program) : Outcome :=
  match s.directoryError host, s.seed with
  | some e, _ => .failed (.noDirectory e)
  | none, some (.negSucc _) => .failed .negativeSeed
  | none, _ => s.runProgram host fuel p

def Settings.process (s : Settings) (host : Host) (fuel : Nat) (p : ProgramText) : Outcome :=
  match Source.parse p.name p.text with
  | .error e =>
    match e.message? p.name with
    | some message => .replied (.failure "" s!"ParseError: {message}\n")
    | none => .failed .tooManyDigits
  | .ok source =>
    match s.mode with
    | .ast => .replied (.success (source.codeTree.inline ++ "\n"))
    | .astPretty => .replied (.success (source.codeTree.layout 0 0 ++ "\n"))
    | .data => .replied (showData source)
    | .ir => .replied (.success ((Code.ofBlock source.code).listing ++ "\n"))
    | .run =>
      match Program.ofSource source with
      | .error x => .replied (.failure "" (faultLine (.labelRedefined x)))
      | .ok program => s.start host fuel program

/-- Carries out the settings; `fuel` bounds the steps of a run. -/
def Settings.execute (s : Settings) (host : Host) (fuel : Nat) : Outcome :=
  match s.readProgram host with
  | .error o => o
  | .ok p => s.process host fuel p

def run (args : List String) (host : Host) (fuel : Nat) : Outcome :=
  match Settings.ofArguments args with
  | .error u => .refused u
  | .ok s => s.execute host fuel

end BrownLang.CommandLine
