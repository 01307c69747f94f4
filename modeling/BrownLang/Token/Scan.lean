import BrownLang.SyntaxError

/-!
# Splitting a text into tokens

A text is a sequence of Unicode scalar values, so that no surrogate stands in
it.  The scanner cuts a text into pieces.  `piece` looks at the characters from
some place on and says what stands there and how long it is; it knows nothing
of positions.  `scanFrom` puts the pieces together and works out the
positions.  Blanks and comments are pieces without a lexeme.
-/

namespace BrownLang.Token

/-! ## Classes of characters -/

def isNameStart (c : Char) : Bool :=
  c == '_' || ('a' ≤ c && c ≤ 'z') || ('A' ≤ c && c ≤ 'Z')

def isDecimalDigit (c : Char) : Bool := '0' ≤ c && c ≤ '9'

def isHexDigit (c : Char) : Bool :=
  isDecimalDigit c || ('a' ≤ c && c ≤ 'f') || ('A' ≤ c && c ≤ 'F')

def isBinaryDigit (c : Char) : Bool := c == '0' || c == '1'

def isNamePart (c : Char) : Bool := isNameStart c || isDecimalDigit c

/-- Blanks between tokens; a line feed is a lexeme and not among them. -/
def isSpacing (c : Char) : Bool := c == ' ' || c == '\t' || c == '\r'

/-! ## Pieces -/

inductive Refusal where
  | fault (cause : ScanFault) (offset : Nat)
  | tooManyDigits
  deriving DecidableEq, Repr

def Refusal.errorAt (p : Position) (cs : List Char) : Refusal → SyntaxError
  | fault cause offset => .scan cause (p.past (cs.take offset))
  | tooManyDigits => .tooManyDigits

/-- A piece of text, one character and `more` after it, and the lexeme it holds, if any. -/
structure Piece where
  lexeme : Option Lexeme
  more : Nat
  deriving DecidableEq, Repr

def unescape? : Char → Option Char
  | 'n' => some '\n'
  | 't' => some '\t'
  | 'r' => some '\r'
  | '0' => some '\x00'
  | '\\' => some '\\'
  | '\'' => some '\''
  | '"' => some '"'
  | _ => none

/--
Reads a string from the character after its opening quote, `offset` characters
into the piece.  The answer is the string and the offset of its closing quote.
-/
def stringFrom (offset : Nat) : List Char → Except Refusal (List Char × Nat)
  | [] => .error (.fault .unterminatedString 0)
  | '"' :: _ => .ok ([], offset)
  | '\n' :: _ => .error (.fault .unterminatedString 0)
  | ['\\'] => .error (.fault .invalidEscape (offset + 1))
  | '\\' :: e :: rest =>
    match unescape? e with
    | none => .error (.fault .invalidEscape (offset + 1))
    | some c => do
      let (s, close) ← stringFrom (offset + 2) rest
      return (c :: s, close)
  | c :: rest => do
    let (s, close) ← stringFrom (offset + 1) rest
    return (c :: s, close)

def character : List Char → Except Refusal Piece
  | [] | '\'' :: _ | '\n' :: _ => .error (.fault .emptyCharacter 0)
  | ['\\'] => .error (.fault .invalidEscape 2)
  | '\\' :: e :: rest =>
    match unescape? e, rest with
    | none, _ => .error (.fault .invalidEscape 2)
    | some c, '\'' :: _ => .ok ⟨some (.number c.toNat), 3⟩
    | some _, _ => .error (.fault .unterminatedCharacter 0)
  | c :: '\'' :: _ => .ok ⟨some (.number c.toNat), 2⟩
  | _ :: _ => .error (.fault .unterminatedCharacter 0)

/--
Reads the digits of a number, which `skip` characters of a base mark precede.
Underscores may stand anywhere among the digits.  No character of a name may
follow.
-/
def digits (base : Nat) (isDigit : Char → Bool) (mark : String) (skip : Nat) (cs : List Char) :
    Except Refusal Piece :=
  let run := cs.takeWhile fun c => isDigit c || c == '_'
  let ds := run.filter (· != '_')
  if ds.isEmpty then .error (.fault (.noDigits mark) 0)
  else
    match (cs.drop run.length).head?.filter isNamePart, Text.convert? base ds with
    | some c, _ => .error (.fault (.invalidDigit c) (skip + run.length))
    | none, some n => .ok ⟨some (.number n), skip + run.length - 1⟩
    | none, none => .error .tooManyDigits

def number : List Char → Except Refusal Piece
  | '0' :: 'x' :: rest | '0' :: 'X' :: rest => digits 16 isHexDigit "0x" 2 rest
  | '0' :: 'b' :: rest | '0' :: 'B' :: rest => digits 2 isBinaryDigit "0b" 2 rest
  | cs => digits 10 isDecimalDigit (String.ofList (cs.take 2)) 0 cs

def nameOrKeyword (x : String) : Lexeme :=
  match Keyword.ofSpelling? x with
  | some k => .keyword k
  | none => .name x

/-- The signs of two characters; they are looked for before those of one. -/
def pair? : Char → Char → Option Lexeme
  | '-', '>' => some (.punct .arrow)
  | '<', '<' => some (.operator .shl)
  | '>', '>' => some (.operator .shr)
  | '<', '=' => some (.operator .le)
  | '>', '=' => some (.operator .ge)
  | '=', '=' => some (.operator .eq)
  | '!', '=' => some (.operator .ne)
  | _, _ => none

def single? : Char → Option Lexeme
  | '(' => some (.punct .lparen)
  | ')' => some (.punct .rparen)
  | '[' => some (.punct .lbracket)
  | ']' => some (.punct .rbracket)
  | ',' => some (.punct .comma)
  | ':' => some (.punct .colon)
  | '&' => some (.operator .and)
  | '|' => some (.operator .or)
  | '^' => some (.operator .xor)
  | '+' => some (.operator .add)
  | '-' => some (.operator .sub)
  | '*' => some (.operator .mul)
  | '/' => some (.operator .div)
  | '%' => some (.operator .mod)
  | '<' => some (.operator .lt)
  | '>' => some (.operator .gt)
  | _ => none

def sign? (c : Char) (rest : List Char) : Option Piece :=
  match rest.head?.bind (pair? c) with
  | some l => some ⟨some l, 1⟩
  | none => (single? c).map fun l => ⟨some l, 0⟩

def piece (c : Char) (rest : List Char) : Except Refusal Piece :=
  if isSpacing c then .ok ⟨none, (rest.takeWhile isSpacing).length⟩
  else if c = '\n' ∨ c = ';' then .ok ⟨some .newline, 0⟩
  else if c = '#' then .ok ⟨none, (rest.takeWhile (· != '\n')).length⟩
  else
    match sign? c rest with
    | some p => .ok p
    | none =>
      if c = '"' then do
        let (s, close) ← stringFrom 1 rest
        return ⟨some (.string (String.ofList s)), close⟩
      else if c = '\'' then character rest
      else if isDecimalDigit c then number (c :: rest)
      else if isNameStart c then
        let tail := rest.takeWhile isNamePart
        .ok ⟨some (nameOrKeyword (String.ofList (c :: tail))), tail.length⟩
      else .error (.fault (.unexpectedCharacter c) 0)

/-! ## Whole texts -/

def scanFrom (p : Position) : List Char → Except SyntaxError (List Token × Position)
  | [] => .ok ([], p)
  | c :: rest =>
    match piece c rest with
    | .error r => .error (r.errorAt p (c :: rest))
    | .ok ⟨none, more⟩ => scanFrom (p.past (c :: rest.take more)) (rest.drop more)
    | .ok ⟨some l, more⟩ => do
      let (ts, last) ← scanFrom (p.past (c :: rest.take more)) (rest.drop more)
      return (⟨l, p⟩ :: ts, last)
termination_by cs => cs.length
decreasing_by
  all_goals
    simp only [List.length_cons, List.length_drop]
    omega

def scan (text : String) : Except SyntaxError (List Token × Position) :=
  scanFrom .start text.toList

end BrownLang.Token
