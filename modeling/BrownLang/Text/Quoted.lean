import BrownLang.Text.Blank
import BrownLang.Text.Numeral

/-!
# Quoted texts

A text, or a string of bytes, in quotes, as reports show it.  Single quotes are
used unless the text holds one and no double quote.  The quote in use and the
backslash are escaped with a backslash; what would not be seen is escaped by
its number.
-/

namespace BrownLang.Text

def quoteFor (hasSingle hasDouble : Bool) : Char :=
  if hasSingle && !hasDouble then '"' else '\''

/-- Characters beyond ASCII that leave no mark, or have no fixed meaning. -/
def isInvisible (c : Char) : Bool :=
  let n := c.toNat
  (0x7F ≤ n && n ≤ 0xA0) || n == 0xAD || (0x600 ≤ n && n ≤ 0x605) || n == 0x61C || n == 0x6DD ||
    n == 0x70F || n == 0x180E || n == 0x1680 || (0x2000 ≤ n && n ≤ 0x200F) ||
    (0x2028 ≤ n && n ≤ 0x202F) || (0x205F ≤ n && n ≤ 0x206F) || n == 0x3000 ||
    (0xE000 ≤ n && n ≤ 0xF8FF) || n == 0xFEFF || (0xFFF0 ≤ n && n ≤ 0xFFFB) || 0xE0000 ≤ n

def escapeCommon? (quote c : Char) : Option String :=
  if c = '\\' then some "\\\\"
  else if c = quote then some (String.ofList ['\\', quote])
  else if c = '\n' then some "\\n"
  else if c = '\r' then some "\\r"
  else if c = '\t' then some "\\t"
  else none

def escapeChar (quote c : Char) : String :=
  match escapeCommon? quote c with
  | some s => s
  | none =>
    if c.toNat < 0x20 || isInvisible c then
      if c.toNat < 0x100 then "\\x" ++ hexadecimal 2 c.toNat
      else if c.toNat < 0x10000 then "\\u" ++ hexadecimal 4 c.toNat
      else "\\U" ++ hexadecimal 8 c.toNat
    else String.singleton c

def quoted (s : String) : String :=
  let cs := s.toList
  let quote := quoteFor (cs.contains '\'') (cs.contains '"')
  String.singleton quote ++ String.join (cs.map (escapeChar quote)) ++ String.singleton quote

def escapeByte (quote : Char) (b : UInt8) : String :=
  let c := Char.ofNat b.toNat
  match escapeCommon? quote c with
  | some s => s
  | none =>
    if b < 0x20 || 0x7E < b then "\\x" ++ hexadecimal 2 b.toNat else String.singleton c

def quotedBytes (bs : List UInt8) : String :=
  let quote := quoteFor (bs.contains 0x27) (bs.contains 0x22)
  "b" ++ String.singleton quote ++ String.join (bs.map (escapeByte quote)) ++
    String.singleton quote

end BrownLang.Text
