import BrownLang.Text.Numeral

/-!
# JSON documents

Written over several lines, with two blanks of indentation for each level, and
in ASCII alone.
-/

namespace BrownLang

inductive Json where
  | null
  | num (n : Nat)
  | str (s : String)
  | arr (items : List Json)
  | obj (fields : List (String × Json))
  deriving Inhabited

namespace Json

def escapeUnit (n : Nat) : String := "\\u" ++ Text.hexadecimal 4 n

/-- A character as it stands in a string; beyond sixteen bits it takes two units. -/
def escape (c : Char) : String :=
  match c with
  | '"' => "\\\""
  | '\\' => "\\\\"
  | '\n' => "\\n"
  | '\r' => "\\r"
  | '\t' => "\\t"
  | '\x08' => "\\b"
  | '\x0c' => "\\f"
  | c =>
    let n := c.toNat
    if 0x20 ≤ n && n ≤ 0x7E then String.singleton c
    else if n < 0x10000 then escapeUnit n
    else
      let m := n - 0x10000
      escapeUnit (0xD800 + m / 0x400) ++ escapeUnit (0xDC00 + m % 0x400)

def quote (s : String) : String := "\"" ++ String.join (s.toList.map escape) ++ "\""

def newLine (n : Nat) : String := "\n" ++ String.ofList (List.replicate n ' ')

mutual

def render (n : Nat) : Json → String
  | null => "null"
  | num k => Text.decimal k
  | str s => quote s
  | arr [] => "[]"
  | arr (x :: xs) =>
    "[" ++ newLine (n + 2) ++ render (n + 2) x ++ renderItems (n + 2) xs ++ newLine n ++ "]"
  | obj [] => "\x7b\x7d"
  | obj ((k, x) :: fields) =>
    "\x7b" ++ newLine (n + 2) ++ quote k ++ ": " ++ render (n + 2) x ++
      renderFields (n + 2) fields ++ newLine n ++ "\x7d"

def renderItems (n : Nat) : List Json → String
  | [] => ""
  | x :: xs => "," ++ newLine n ++ render n x ++ renderItems n xs

def renderFields (n : Nat) : List (String × Json) → String
  | [] => ""
  | (k, x) :: fields =>
    "," ++ newLine n ++ quote k ++ ": " ++ render n x ++ renderFields n fields

end

end Json

end BrownLang
