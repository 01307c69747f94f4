import BrownLang.Token

/-!
# Errors in the text of a program

A cause says what is wrong; the position says where.  `SyntaxError.message?`
holds all the wording.  An error of the host that is passed on as it is has
neither.
-/

namespace BrownLang

inductive ScanFault where
  | unexpectedCharacter (c : Char)
  | noDigits (base : String)
  | invalidDigit (c : Char)
  | unterminatedString
  | emptyCharacter
  | unterminatedCharacter
  | invalidEscape
  deriving DecidableEq, Repr

def ScanFault.message : ScanFault → String
  | unexpectedCharacter c => s!"Unexpected character '{c}'"
  | noDigits base => s!"Expected digits after '{base}'"
  | invalidDigit c => s!"Invalid character '{c}' in number"
  | unterminatedString => "Unterminated string literal"
  | emptyCharacter => "Empty character literal"
  | unterminatedCharacter => "Unterminated character literal"
  | invalidEscape => "Invalid escape sequence"

inductive ParseFault where
  | expected (wanted found : Kind)
  | unexpectedInExpression (found : Kind)
  | unexpectedInData (found : Kind)
  | missingEnd
  | expectedLineEnd (found : Kind)
  | notACall
  | numberTooLarge (n : Nat)
  | byteTooLarge (n : Nat)
  | duplicateParameter (name : String)
  deriving DecidableEq, Repr

def ParseFault.message : ParseFault → String
  | expected wanted found => s!"Expected token {wanted.label} but found {found.label}"
  | unexpectedInExpression found => s!"Unexpected token {found.label} in expression"
  | unexpectedInData found => s!"Unexpected token {found.label} in data section"
  | missingEnd => "Unexpected end of file, missing 'end'"
  | expectedLineEnd found => s!"Expected end of line but found {found.label}"
  | notACall => "Only function calls may be used as statements"
  | numberTooLarge n => s!"Number {n} does not fit in 32 bits"
  | byteTooLarge n => s!"Byte value {n} out of range (use 'word')"
  | duplicateParameter name => s!"Duplicate parameter '{name}'"

inductive SyntaxError where
  | scan (fault : ScanFault) (position : Position)
  | parse (fault : ParseFault) (position : Position)
  /-- The host does not convert a number.  This error is its own. -/
  | tooManyDigits
  deriving DecidableEq, Repr

namespace SyntaxError

def report? : SyntaxError → Option (String × Position)
  | scan fault p => some (fault.message, p)
  | parse fault p => some (fault.message, p)
  | tooManyDigits => none

def message? (file : String) (e : SyntaxError) : Option String :=
  e.report?.map fun (cause, p) => s!"{cause} at {file}:{p.line}:{p.column}"

end SyntaxError

end BrownLang
