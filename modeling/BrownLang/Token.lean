import BrownLang.Operator
import BrownLang.Text.Position
import BrownLang.Text.Numeral

/-!
# Tokens

A token is a lexeme with the position of its first character.  A semicolon
and a line feed are the same lexeme.  Nothing marks the end of the text: a
list of tokens just ends, and `Kind.eof` is the kind of what is found there.
-/

namespace BrownLang

inductive Keyword where
  | kwIf | kwElse | kwEnd | kwWhile | kwFor | kwFrom | kwTo | kwFun | kwPreserve | kwGoto
  | kwData | kwWord
  deriving DecidableEq, Repr

namespace Keyword

def spelling : Keyword → String
  | kwIf => "if" | kwElse => "else" | kwEnd => "end" | kwWhile => "while" | kwFor => "for"
  | kwFrom => "from" | kwTo => "to" | kwFun => "fun" | kwPreserve => "preserve"
  | kwGoto => "goto" | kwData => "data" | kwWord => "word"

def label : Keyword → String
  | kwIf => "IF" | kwElse => "ELSE" | kwEnd => "END" | kwWhile => "WHILE" | kwFor => "FOR"
  | kwFrom => "FROM" | kwTo => "TO" | kwFun => "FUN" | kwPreserve => "PRESERVE"
  | kwGoto => "GOTO" | kwData => "DATA" | kwWord => "WORD"

def all : List Keyword :=
  [kwIf, kwElse, kwEnd, kwWhile, kwFor, kwFrom, kwTo, kwFun, kwPreserve, kwGoto, kwData, kwWord]

def ofSpelling? (s : String) : Option Keyword := all.find? (·.spelling = s)

end Keyword

inductive Punct where
  | lparen | rparen | lbracket | rbracket | comma | colon | arrow
  deriving DecidableEq, Repr

namespace Punct

def symbol : Punct → String
  | lparen => "(" | rparen => ")" | lbracket => "[" | rbracket => "]"
  | comma => "," | colon => ":" | arrow => "->"

def label : Punct → String
  | lparen => "LPAREN" | rparen => "RPAREN" | lbracket => "LBRACKET" | rbracket => "RBRACKET"
  | comma => "COMMA" | colon => "COLON" | arrow => "ARROW"

end Punct

def Operator.label : Operator → String
  | or => "PIPE" | xor => "CARET" | and => "AMP"
  | eq => "EQ" | ne => "NE"
  | lt => "LT" | gt => "GT" | le => "LE" | ge => "GE"
  | shl => "SHL" | shr => "SHR"
  | add => "PLUS" | sub => "MINUS"
  | mul => "STAR" | div => "SLASH" | mod => "PERCENT"

inductive Kind where
  | name
  | number
  | string
  | keyword (k : Keyword)
  | operator (o : Operator)
  | punct (p : Punct)
  | newline
  | eof
  deriving DecidableEq, Repr

def Kind.label : Kind → String
  | name => "IDENT"
  | number => "NUMBER"
  | string => "STRING"
  | keyword k => k.label
  | operator o => o.label
  | punct p => p.label
  | newline => "NEWLINE"
  | eof => "EOF"

inductive Lexeme where
  | name (x : String)
  | number (n : Nat)
  | string (s : String)
  | keyword (k : Keyword)
  | operator (o : Operator)
  | punct (p : Punct)
  | newline
  deriving DecidableEq, Repr

namespace Lexeme

def kind : Lexeme → Kind
  | name _ => .name
  | number _ => .number
  | string _ => .string
  | keyword k => .keyword k
  | operator o => .operator o
  | punct p => .punct p
  | newline => .newline

/--
What the lexeme stands for: a number in decimal however it was spelled, a
string without its quotes.
-/
def text : Lexeme → String
  | name x => x
  | number n => Text.decimal n
  | string s => s
  | keyword k => k.spelling
  | operator o => o.symbol
  | punct p => p.symbol
  | newline => "\n"

end Lexeme

structure Token where
  lexeme : Lexeme
  position : Position
  deriving DecidableEq, Repr

end BrownLang
