import BrownLang.CommandLine.Integer

/-!
# Arguments of the command line

There is one operand, the program, and some options.  A long option may be
shortened as long as it stays unlike the others, and its value may follow
after an equals sign.  After a double dash all arguments are operands.
-/

namespace BrownLang.CommandLine

inductive Mode where
  | ast
  | astPretty
  | data
  | ir
  | run
  deriving DecidableEq, Repr

def Mode.ofName? : String → Option Mode
  | "ast" => some .ast
  | "ast-pretty" => some .astPretty
  | "data" => some .data
  | "ir" => some .ir
  | "run" => some .run
  | _ => none

inductive Switch where
  | help
  | emit
  | source
  | verbose
  | tracebackJson
  | frames
  | seed
  | strictArgs
  deriving DecidableEq, Repr

namespace Switch

def spellings : List (String × Switch) :=
  [("-h", help), ("--help", help), ("--emit", emit), ("-source", source), ("--source", source),
    ("-verbose", verbose), ("--verbose", verbose), ("--traceback-json", tracebackJson),
    ("--frames", frames), ("--seed", seed), ("--strict-args", strictArgs)]

def takesValue : Switch → Bool
  | emit | frames | seed => true
  | _ => false

end Switch

structure Settings where
  program : String
  mode : Mode
  /-- Whether `program` is the text itself. -/
  literal : Bool
  verbose : Bool
  tracebackJson : Bool
  frames : Option String
  seed : Option Int
  strictArgs : Bool
  deriving DecidableEq, Repr

inductive Usage where
  | help
  | wrong
  deriving DecidableEq, Repr

inductive Argument where
  | operand (s : String)
  | separator
  /-- An option, whether it was spelled with one dash, and the value attached to it. -/
  | switch (sw : Switch) (oneDash : Bool) (attached : Option String)
  | unknown
  deriving DecidableEq, Repr

/-! ## Telling options from operands -/

def splitAtEquals (s : String) : Option (String × String) :=
  let cs := s.toList
  match cs.dropWhile (· != '=') with
  | [] => none
  | _ :: value => some (String.ofList (cs.takeWhile (· != '=')), String.ofList value)

def candidates (s : String) : List (Switch × Option String) :=
  match s.toList with
  | '-' :: '-' :: _ =>
    let (head, value) :=
      match splitAtEquals s with
      | some (head, value) => (head, some value)
      | none => (s, none)
    Switch.spellings.filterMap fun (name, sw) =>
      if name.startsWith head then some (sw, value) else none
  | '-' :: c :: rest =>
    Switch.spellings.filterMap fun (name, sw) =>
      if name = String.ofList ['-', c] then some (sw, some (String.ofList rest))
      else if name.startsWith s then some (sw, none)
      else none
  | _ => []

def hasOneDash (s : String) : Bool :=
  match s.toList with
  | '-' :: '-' :: _ => false
  | _ => true

def classify (s : String) : Except Usage Argument :=
  if !s.startsWith "-" || s = "-" then .ok (.operand s)
  else if s = "--" then .ok .separator
  else
    match Switch.spellings.lookup s with
    | some sw => .ok (.switch sw (hasOneDash s) none)
    | none =>
      match (splitAtEquals s).bind fun (head, value) =>
          (Switch.spellings.lookup head).map fun sw => (sw, value) with
      | some (sw, value) => .ok (.switch sw (hasOneDash s) (some value))
      | none =>
        match candidates s with
        | [(sw, value)] => .ok (.switch sw (hasOneDash s) value)
        | _ :: _ => .error .wrong
        | [] =>
          if isNegativeNumber s || s.contains ' ' then .ok (.operand s) else .ok .unknown

def classifyAll : List String → Except Usage (List Argument)
  | [] => .ok []
  | s :: rest => do
    match ← classify s with
    | .separator => return .separator :: rest.map .operand
    | a => return a :: (← classifyAll rest)

/-! ## Settings -/

def Settings.plain (p : String) : Settings where
  program := p
  mode := .run
  literal := false
  verbose := false
  tracebackJson := false
  frames := none
  seed := none
  strictArgs := false

def Settings.raise (s : Settings) : Switch → Except Usage Settings
  | .source => .ok { s with literal := true }
  | .verbose => .ok { s with verbose := true }
  | .tracebackJson => .ok { s with tracebackJson := true }
  | .strictArgs => .ok { s with strictArgs := true }
  | .help => .error .help
  | _ => .error .wrong

def Settings.assign (s : Settings) (sw : Switch) (value : String) : Except Usage Settings :=
  match sw with
  | .emit =>
    match Mode.ofName? value with
    | some mode => .ok { s with mode := mode }
    | none => .error .wrong
  | .frames => .ok { s with frames := some value }
  | .seed =>
    match integer? value with
    | some n => .ok { s with seed := some n }
    | none => .error .wrong
  | _ => .error .wrong

/--
Whether the letters attached to an option of one dash ask for help, each being
an option by itself.
-/
def asksForHelp (value : String) : Bool := !value.isEmpty && value.toList.all (· = 'h')

/--
Goes through the arguments.  `found` is the program, once it is known, and
`fresh` says that it was the argument just before.  A double dash has to stand
next to the program.
-/
def settle (s : Settings) (found : Option String) (fresh : Bool) :
    List Argument → Except Usage Settings
  | [] =>
    match found with
    | some p => .ok { s with program := p }
    | none => .error .wrong
  | .operand p :: rest =>
    match found with
    | none => settle s (some p) true rest
    | some _ => do
      let _ ← settle s found false rest
      .error .wrong
  | .separator :: rest =>
    if found.isNone || fresh then settle s found false rest
    else do
      let _ ← settle s found false rest
      .error .wrong
  | .unknown :: rest => do
    let _ ← settle s found false rest
    .error .wrong
  | .switch sw oneDash attached :: rest =>
    if sw.takesValue then
      match attached, rest with
      | some value, rest => do settle (← s.assign sw value) found false rest
      | none, .operand value :: rest => do settle (← s.assign sw value) found false rest
      | none, _ => .error .wrong
    else
      match attached with
      | none => do settle (← s.raise sw) found false rest
      | some value =>
        if oneDash && asksForHelp value then .error .help else .error .wrong

def Settings.ofArguments (args : List String) : Except Usage Settings := do
  settle (.plain "") none false (← classifyAll args)

end BrownLang.CommandLine
