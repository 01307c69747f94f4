import BrownLang.Source
import BrownLang.Word
import BrownLang.Stmt.Read
import BrownLang.Token.Scan

/-!
# Reading source files

A file is an optional data section and then code.  `Source.parse` takes a text
all the way to a `Source`.  Expressions and blocks may be nested to any depth,
as the stack of the host has no end here.
-/

namespace BrownLang

open Reader

def DataItem.readAll : List Token → Except ReadFailure (List DataItem × List Token)
  | ⟨.keyword .kwEnd, _⟩ :: rest => .ok ([], rest)
  | ⟨.newline, _⟩ :: rest => readAll rest
  | ⟨.name x, _⟩ :: ⟨.punct .colon, _⟩ :: rest => do
    let (items, r) ← readAll rest
    return (.label x :: items, r)
  | ⟨.string s, _⟩ :: rest => do
    let (items, r) ← readAll rest
    return (.bytes s.toUTF8.data.toList :: items, r)
  | ⟨.number n, p⟩ :: rest =>
    if n < 256 then do
      let (items, r) ← readAll rest
      return (.bytes [UInt8.ofNat n] :: items, r)
    else .error ⟨.byteTooLarge n, some p⟩
  | ⟨.keyword .kwWord, _⟩ :: ⟨.number n, p⟩ :: rest =>
    if n < Word.count then do
      let (items, r) ← readAll rest
      return (.bytes (Word.bytes n) :: items, r)
    else .error ⟨.numberTooLarge n, some p⟩
  | ⟨.keyword .kwWord, _⟩ :: rest => failAt rest (.expected .number (kindAt rest))
  | ts => failAt ts (.unexpectedInData (kindAt ts))

namespace Source

def readData : List Token → Except ReadFailure (List DataItem × List Token)
  | ⟨.keyword .kwData, _⟩ :: rest => do
    let (items, r) ← DataItem.readAll rest
    Stmt.lineEnd .file r
    return (items, r)
  | ts => .ok ([], ts)

def read (o : Origin) (ts : List Token) : Except ReadFailure Source := do
  let (data, r) ← readData (ts.dropWhile (·.lexeme = .newline))
  let (code, _) ← Stmt.readBlock o .file r
  return ⟨data, code⟩

def parse (file text : String) : Except SyntaxError Source := do
  let (ts, last) ← Token.scan text
  match read (Origin.ofText file text) ts with
  | .ok s => .ok s
  | .error e => .error (.parse e.fault (e.position.getD last))

end Source

end BrownLang
