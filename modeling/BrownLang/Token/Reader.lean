import BrownLang.SyntaxError
import BrownLang.Word

/-!
# Reading from a list of tokens

A reader takes tokens off the front of a list.  It answers what it has read
and the tokens that are left, which come with the proof that they are fewer;
the grammar's recursion ends for that reason.
-/

namespace BrownLang

/--
Why reading stopped, and where: at a token, or at the end of the tokens if
there is no position.
-/
structure ReadFailure where
  fault : ParseFault
  position : Option Position
  deriving DecidableEq, Repr

abbrev TokensAfter (ts : List Token) := { rest : List Token // rest.length < ts.length }

abbrev TokensWithin (ts : List Token) := { rest : List Token // rest.length ≤ ts.length }

def TokensWithin.all (ts : List Token) : TokensWithin ts := ⟨ts, Nat.le_refl _⟩

namespace Reader

def kindAt : List Token → Kind
  | [] => .eof
  | t :: _ => t.lexeme.kind

def failAt {α : Type} (ts : List Token) (fault : ParseFault) : Except ReadFailure α :=
  .error ⟨fault, ts.head?.map Token.position⟩

def expect (k : Kind) (ts : List Token) : Except ReadFailure (TokensAfter ts) :=
  match ts with
  | [] => failAt [] (.expected k .eof)
  | t :: rest =>
    if t.lexeme.kind = k then .ok ⟨rest, Nat.lt_succ_self _⟩
    else failAt (t :: rest) (.expected k t.lexeme.kind)

def expectName (ts : List Token) : Except ReadFailure (String × TokensAfter ts) :=
  match ts with
  | ⟨.name x, _⟩ :: rest => .ok (x, ⟨rest, Nat.lt_succ_self _⟩)
  | _ => failAt ts (.expected .name (kindAt ts))

def expectWord (ts : List Token) : Except ReadFailure (Nat × TokensAfter ts) :=
  match ts with
  | ⟨.number n, p⟩ :: rest =>
    if n < Word.count then .ok (n, ⟨rest, Nat.lt_succ_self _⟩)
    else .error ⟨.numberTooLarge n, some p⟩
  | _ => failAt ts (.expected .number (kindAt ts))

end Reader

end BrownLang
