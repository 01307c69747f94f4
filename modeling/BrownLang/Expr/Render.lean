import BrownLang.Expr
import BrownLang.Text.Numeral

/-!
# Writing expressions

The canonical form of an expression has parentheses around every binary
expression and no others, so no two expressions are written alike.
-/

namespace BrownLang

namespace Expr

mutual

def render : Expr → String
  | lit n => Text.decimal n
  | var x => x
  | addr x => "&" ++ x
  | word a => "[" ++ render a ++ "]"
  | byte a => "b[" ++ render a ++ "]"
  | bin op l r => "(" ++ render l ++ " " ++ op.symbol ++ " " ++ render r ++ ")"
  | call f args => f ++ "(" ++ renderArgs args ++ ")"

def renderArgs : List Expr → String
  | [] => ""
  | [a] => render a
  | a :: rest => render a ++ ", " ++ renderArgs rest

end

end Expr

def Target.render : Target → String
  | var x => x
  | word a => "[" ++ a.render ++ "]"
  | byte a => "b[" ++ a.render ++ "]"

end BrownLang
