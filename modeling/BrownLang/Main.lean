import BrownLang.CommandLine.Execution
import BrownLang.Screen.Png

/-!
# The command

Reads the files that the command line names, and writes what it answers.
-/

namespace BrownLang.CommandLine

def usage : String :=
  "usage: brown [-h] [--emit ast|ast-pretty|data|ir|run] [-source] [-verbose]\n" ++
  "             [--traceback-json] [--frames DIR] [--seed SEED] [--strict-args]\n" ++
  "             program"

def readEntry (name : String) : IO FileEntry := do
  try
    return .file (← IO.FS.readBinFile name)
  catch e =>
    match e with
    | .inappropriateType .. => return .directory
    | .permissionDenied _ code reason => return .unreadable ⟨code.toNat, reason⟩
    | _ => return .missing

/-- The random numbers of a seed, the high bits of a congruential sequence. -/
def numbers (seed : Nat) : Generator :=
  let next (low high state : Nat) : Nat × Nat :=
    let state' := (state * 6364136223846793005 + 1442695040888963407) % 0x10000000000000000
    (low + state' / 0x10000 % (high - low), state')
  .computed next seed

def saveFrames (saved : SavedFrames) : IO Unit := do
  let place := if saved.directory = "" then "" else saved.directory ++ "/"
  for (n, img) in saved.frames do
    let file := Png.ofImage (img.scale Screen.standardPixelSide)
    IO.FS.writeBinFile (place ++ frameFileName n) file

def stepLimit : Nat := 1000000000000000000

def reported : Mishap → String
  | .notText => "the program is not encoded in UTF-8"
  | .tooManyDigits => "a number is too long"
  | .noDirectory e => "there is no directory for frames: " ++ e.reason
  | .negativeSeed => "the seed is negative"

/--
Carries out what the settings ask for, and answers the status.  A directory for
frames is made before anything is shown, once it is known that the run begins.
-/
def perform (s : Settings) : IO UInt32 := do
  let program ← if s.literal then pure FileEntry.missing else readEntry s.program
  let entropy ← IO.monoNanosNow
  let host : Host := ⟨fun _ => program, fun _ => none, fun seed => numbers (seed.getD entropy)⟩
  match s.execute host stepLimit with
  | .replied r =>
    try
      if let some saved := r.saved then
        unless saved.directory = "" do IO.FS.createDirAll saved.directory
    catch e =>
      return ← failed (reported (.noDirectory ⟨0, toString e⟩))
    IO.print r.out
    IO.eprint r.err
    r.saved.forM saveFrames
    return r.status.toUInt32
  | .failed m => failed (reported m)
  | .refused _ | .unfinished => failed "the program did not end"
where
  failed (why : String) : IO UInt32 := do
    IO.eprintln why
    return 1

end BrownLang.CommandLine

open BrownLang.CommandLine in
def main (args : List String) : IO UInt32 := do
  match Settings.ofArguments args with
  | .error .help =>
    IO.println usage
    return 0
  | .error .wrong =>
    IO.eprintln usage
    return 2
  | .ok s => perform s
