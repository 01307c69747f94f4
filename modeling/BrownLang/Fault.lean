import BrownLang.Memory
import BrownLang.Screen

/-!
# Faults

Everything that can go wrong when a program is loaded or run.  A fault has a
title, a message, and the rule of the language that it breaks.
-/

namespace BrownLang

inductive Fault where
  | labelNotFound (name : String)
  | functionNotFound (name : String)
  | notAFunction (name : String)
  | labelRedefined (name : String)
  | memory (e : OutOfBounds)
  /-- A built-in function that takes one of the `accepted` counts of arguments was given another. -/
  | builtinArity (name : String) (accepted : List Int) (given : Nat)
  | arity (name : String) (wanted given : Nat)
  | invalidCharacter (value : Nat)
  | divisionByZero
  | unknownOperator (symbol : String)
  | emptyRange (low high : Nat)
  | output (reason : String)
  | canvas (e : CanvasFault)
  | host (reason : String)
  deriving DecidableEq, Repr

namespace Fault

def title : Fault → String
  | labelNotFound _ => "LabelNotFound"
  | functionNotFound _ => "FunctionNotFound"
  | notAFunction _ => "NameIsNotFunction"
  | labelRedefined _ => "LabelRedefinition"
  | memory e => e.access.faultTitle
  | builtinArity .. => "IntrinsicArgumentMismatch"
  | arity .. => "ArgumentMismatch"
  | invalidCharacter _ => "InvalidCharacterValue"
  | divisionByZero => "DivisionByZero"
  | unknownOperator _ | host _ => "BrownRuntimeError"
  | emptyRange .. => "IntrinsicValueError"
  | output _ => "SystemFault"
  | canvas _ => "GraphicsError"

def message : Fault → String
  | labelNotFound x => s!"No label named '{x}'"
  | functionNotFound x => s!"No function named '{x}'"
  | notAFunction x => s!"'{x}' is a label, not a function"
  | labelRedefined x => s!"Label '{x}' is defined more than once"
  | memory e => e.message
  | builtinArity f accepted given =>
    let counts := " or ".intercalate (accepted.map toString)
    s!"{f} expects {counts} arguments, {given} given"
  | arity f wanted given => s!"{f} expects {wanted} arguments, {given} given"
  | invalidCharacter v => s!"{v} is not a valid character"
  | divisionByZero => "Division by zero"
  | unknownOperator o => s!"Unknown operator '{o}'"
  | emptyRange low high => s!"random_range: empty range [{low}, {high})"
  | output reason => s!"Failed to write output: {reason}"
  | canvas e => e.message
  | host reason => s!"Internal interpreter error: {reason}"

def rule : Fault → String
  | labelNotFound _ => "GOTO"
  | functionNotFound _ | notAFunction _ => "CALL"
  | labelRedefined _ => "LOAD"
  | memory _ => "MEMORY"
  | builtinArity f _ _ | arity f _ _ => f
  | invalidCharacter _ => "putc"
  | divisionByZero | unknownOperator _ => "ARITH"
  | emptyRange .. => "random_range"
  | output _ => "SYSTEM"
  | canvas _ => "GRAPHICS"
  | host _ => "internal"

end Fault

end BrownLang
