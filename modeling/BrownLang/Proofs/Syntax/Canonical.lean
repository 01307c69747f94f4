import BrownLang.Expr.Render
import BrownLang.Source
import BrownLang.Token.Scan
import BrownLang.Word

/-!
# The canonical form of a source file

A source file is well formed if a text can say it: its names are names of the
grammar, its numbers are words, and so on.  The canonical text has one
statement on a line, and expressions as `Expr.render` writes them.
-/

namespace BrownLang

/-! ## Well-formed source files -/

def Token.isName (x : String) : Bool :=
  match x.toList with
  | [] => false
  | c :: cs => isNameStart c && cs.all isNamePart && (Keyword.ofSpelling? x).isNone

open Token (isName)

def BinOp.isKnown : BinOp → Bool
  | known _ => true
  | unknown _ => false

namespace Expr

mutual

def wellFormed : Expr → Bool
  | lit n => n < Word.count
  | var x | addr x => isName x
  | word a | byte a => wellFormed a
  | bin op l r => op.isKnown && wellFormed l && wellFormed r
  | call f args => isName f && wellFormedAll args

def wellFormedAll : List Expr → Bool
  | [] => true
  | e :: rest => wellFormed e && wellFormedAll rest

end

def isCall : Expr → Bool
  | call .. => true
  | _ => false

end Expr

def Target.wellFormed : Target → Bool
  | var x => isName x
  | word a | byte a => a.wellFormed

namespace Stmt

mutual

def wellFormed : Stmt → Bool
  | assign t e _ => t.wellFormed && e.wellFormed
  | forLoop x a b body _ => isName x && a.wellFormed && b.wellFormed && wellFormedAll body
  | whileLoop c body _ | ifThen c body _ => c.wellFormed && wellFormedAll body
  | ifElse c yes no _ => c.wellFormed && wellFormedAll yes && wellFormedAll no
  | goto l _ | label l _ => isName l
  | function f ps _ body _ => isName f && ps.all isName && decide ps.Nodup && wellFormedAll body
  | eval e _ => e.isCall && e.wellFormed

def wellFormedAll : List Stmt → Bool
  | [] => true
  | s :: rest => wellFormed s && wellFormedAll rest

end

end Stmt

def DataItem.WellFormed : DataItem → Prop
  | label x => isName x
  | bytes bs => bs.length = 1 ∨ bs.length = 4 ∨ ∃ s : String, bs = s.toUTF8.data.toList

structure Source.WellFormed (s : Source) : Prop where
  data : ∀ item ∈ s.data, item.WellFormed
  code : Stmt.wellFormedAll s.code

/-! ## Texts -/

namespace Text

def escape : Char → List Char
  | '\n' => ['\\', 'n']
  | '\t' => ['\\', 't']
  | '\r' => ['\\', 'r']
  | '\x00' => ['\\', '0']
  | '\\' => ['\\', '\\']
  | '"' => ['\\', '"']
  | c => [c]

def literal (s : String) : String := "\"" ++ String.ofList (s.toList.flatMap escape) ++ "\""

end Text

/-- One byte is written as a number, four as a word, and any other number of bytes as a string. -/
def DataItem.print : DataItem → String
  | label x => x ++ ":"
  | bytes [b] => Text.decimal b.toNat
  | bytes [a, b, c, d] => "word " ++ Text.decimal (Word.ofBytes a b c d)
  | bytes bs =>
    match String.fromUTF8? ⟨bs.toArray⟩ with
    | some s => Text.literal s
    | none => ""

def DataItem.printAll : List DataItem → String
  | [] => ""
  | item :: rest => item.print ++ "\n" ++ printAll rest

namespace Stmt

mutual

def print : Stmt → String
  | assign t e _ => e.render ++ " -> " ++ t.render ++ "\n"
  | goto l _ => "goto " ++ l ++ "\n"
  | label l _ => l ++ ":\n"
  | eval e _ => e.render ++ "\n"
  | ifThen c yes _ => "if " ++ c.render ++ "\n" ++ printAll yes ++ "end\n"
  | ifElse c yes no _ =>
    "if " ++ c.render ++ "\n" ++ printAll yes ++ "else\n" ++ printAll no ++ "end\n"
  | whileLoop c body _ => "while " ++ c.render ++ "\n" ++ printAll body ++ "end\n"
  | forLoop x a b body _ =>
    "for " ++ x ++ " from " ++ a.render ++ " to " ++ b.render ++ "\n" ++ printAll body ++ "end\n"
  | function f ps keep body _ =>
    "fun " ++ f ++ "(" ++ Expr.renderArgs (ps.map .var) ++ ")" ++
      (if keep then " preserve" else "") ++ "\n" ++ printAll body ++ "end\n"

def printAll : List Stmt → String
  | [] => ""
  | s :: rest => print s ++ printAll rest

end

end Stmt

def Source.print (s : Source) : String :=
  (if s.data.isEmpty then "" else "data\n" ++ DataItem.printAll s.data ++ "end\n") ++
    Stmt.printAll s.code

/-! ## Lexemes -/

def BinOp.lexeme : BinOp → Lexeme
  | known o => .operator o
  | unknown s => .name s

namespace Expr

mutual

def lexemes : Expr → List Lexeme
  | lit n => [.number n]
  | var x => [.name x]
  | addr x => [.operator .and, .name x]
  | word a => .punct .lbracket :: lexemes a ++ [.punct .rbracket]
  | byte a => .name "b" :: .punct .lbracket :: lexemes a ++ [.punct .rbracket]
  | bin op l r => .punct .lparen :: lexemes l ++ op.lexeme :: lexemes r ++ [.punct .rparen]
  | call f args => .name f :: .punct .lparen :: argLexemes args ++ [.punct .rparen]

def argLexemes : List Expr → List Lexeme
  | [] => []
  | [a] => lexemes a
  | a :: rest => lexemes a ++ .punct .comma :: argLexemes rest

end

end Expr

def Target.lexemes : Target → List Lexeme
  | var x => [.name x]
  | word a => .punct .lbracket :: a.lexemes ++ [.punct .rbracket]
  | byte a => .name "b" :: .punct .lbracket :: a.lexemes ++ [.punct .rbracket]

def DataItem.lexemes : DataItem → List Lexeme
  | label x => [.name x, .punct .colon]
  | bytes [b] => [.number b.toNat]
  | bytes [a, b, c, d] => [.keyword .kwWord, .number (Word.ofBytes a b c d)]
  | bytes bs =>
    match String.fromUTF8? ⟨bs.toArray⟩ with
    | some s => [.string s]
    | none => []

def DataItem.lexemesAll : List DataItem → List Lexeme
  | [] => []
  | item :: rest => item.lexemes ++ .newline :: lexemesAll rest

namespace Stmt

mutual

/-- The lexemes of a statement up to its last line end, which is not among them. -/
def lexemes : Stmt → List Lexeme
  | assign t e _ => e.lexemes ++ .punct .arrow :: t.lexemes
  | goto l _ => [.keyword .kwGoto, .name l]
  | label l _ => [.name l, .punct .colon]
  | eval e _ => e.lexemes
  | ifThen c yes _ =>
    .keyword .kwIf :: c.lexemes ++ .newline :: lexemesAll yes ++ [.keyword .kwEnd]
  | ifElse c yes no _ =>
    .keyword .kwIf :: c.lexemes ++ .newline :: lexemesAll yes ++
      .keyword .kwElse :: .newline :: lexemesAll no ++ [.keyword .kwEnd]
  | whileLoop c body _ =>
    .keyword .kwWhile :: c.lexemes ++ .newline :: lexemesAll body ++ [.keyword .kwEnd]
  | forLoop x a b body _ =>
    .keyword .kwFor :: .name x :: .keyword .kwFrom :: a.lexemes ++ .keyword .kwTo :: b.lexemes ++
      .newline :: lexemesAll body ++ [.keyword .kwEnd]
  | function f ps keep body _ =>
    .keyword .kwFun :: .name f :: .punct .lparen :: Expr.argLexemes (ps.map .var) ++
      .punct .rparen :: (if keep then [.keyword .kwPreserve] else []) ++
      .newline :: lexemesAll body ++ [.keyword .kwEnd]

def lexemesAll : List Stmt → List Lexeme
  | [] => []
  | s :: rest => lexemes s ++ .newline :: lexemesAll rest

end

end Stmt

def Source.lexemes (s : Source) : List Lexeme :=
  (if s.data.isEmpty then []
    else .keyword .kwData :: .newline :: DataItem.lexemesAll s.data ++
      [.keyword .kwEnd, .newline]) ++
    Stmt.lexemesAll s.code

end BrownLang
