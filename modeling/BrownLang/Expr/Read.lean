import BrownLang.Expr
import BrownLang.Token.Reader

/-!
# Reading expressions

`primary` reads an operand.  `binary min` reads an expression whose operators,
outside parentheses, all have the level `min` or a higher one: an operand, and
then what `climb` adds on its right, one operator and its right operand at a
time.  The right operand of an operator holds only operators that bind
tighter, so operators of one level group to the left.

A name before an opening parenthesis is a call, and the name `b` before an
opening bracket reads a byte; both names are variables elsewhere.
-/

namespace BrownLang.Expr

open Reader

mutual

def primary (ts : List Token) : Except ReadFailure (Expr × TokensAfter ts) :=
  match ts with
  | ⟨.number n, p⟩ :: rest => do
    let (v, ⟨r, h⟩) ← expectWord (⟨.number n, p⟩ :: rest)
    return (.lit v, ⟨r, h⟩)
  | ⟨.operator .and, _⟩ :: rest => do
    let (x, ⟨r, h⟩) ← expectName rest
    return (.addr x, ⟨r, Nat.lt_succ_of_lt h⟩)
  | ⟨.punct .lbracket, _⟩ :: rest => do
    let (a, ⟨r, h⟩) ← binary 0 rest
    let ⟨r', h'⟩ ← expect (.punct .rbracket) r
    return (.word a, ⟨r', Nat.lt_succ_of_lt (Nat.lt_trans h' h)⟩)
  | ⟨.name x, _⟩ :: ⟨.punct .lbracket, q⟩ :: rest =>
    if x = "b" then do
      let (a, ⟨r, h⟩) ← binary 0 rest
      let ⟨r', h'⟩ ← expect (.punct .rbracket) r
      return (.byte a, ⟨r', by simp only [List.length_cons]; omega⟩)
    else .ok (.var x, ⟨⟨.punct .lbracket, q⟩ :: rest, Nat.lt_succ_self _⟩)
  | ⟨.name f, _⟩ :: ⟨.punct .lparen, _⟩ :: ⟨.punct .rparen, _⟩ :: rest =>
    .ok (.call f [], ⟨rest, by simp only [List.length_cons]; omega⟩)
  | ⟨.name f, _⟩ :: ⟨.punct .lparen, _⟩ :: rest => do
    let (args, ⟨r, h⟩) ← arguments rest
    let ⟨r', h'⟩ ← expect (.punct .rparen) r
    return (.call f args, ⟨r', by simp only [List.length_cons]; omega⟩)
  | ⟨.name x, _⟩ :: rest => .ok (.var x, ⟨rest, Nat.lt_succ_self _⟩)
  | ⟨.punct .lparen, _⟩ :: rest => do
    let (e, ⟨r, h⟩) ← binary 0 rest
    let ⟨r', h'⟩ ← expect (.punct .rparen) r
    return (e, ⟨r', Nat.lt_succ_of_lt (Nat.lt_trans h' h)⟩)
  | _ => failAt ts (.unexpectedInExpression (kindAt ts))
termination_by (ts.length, 0)
decreasing_by
  all_goals
    apply Prod.Lex.left
    simp only [List.length_cons]
    omega

def binary (min : Nat) (ts : List Token) : Except ReadFailure (Expr × TokensAfter ts) := do
  let (l, ⟨r, h⟩) ← primary ts
  let (e, ⟨r', h'⟩) ← climb min l r
  return (e, ⟨r', Nat.lt_of_le_of_lt h' h⟩)
termination_by (ts.length, 1)
decreasing_by
  · exact Prod.Lex.right _ (Nat.lt_succ_self _)
  · exact Prod.Lex.left _ _ h

/-- Adds to `l` the operators of the level `min` or a higher one that come next. -/
def climb (min : Nat) (l : Expr) (ts : List Token) :
    Except ReadFailure (Expr × TokensWithin ts) :=
  match ts with
  | ⟨.operator o, p⟩ :: rest =>
    if min ≤ o.level then do
      let (r, ⟨ts', h⟩) ← binary (o.level + 1) rest
      let (e, ⟨ts'', h'⟩) ← climb min (.bin (.known o) l r) ts'
      return (e, ⟨ts'', by simp only [List.length_cons]; omega⟩)
    else .ok (l, .all (⟨.operator o, p⟩ :: rest))
  | ts => .ok (l, .all ts)
termination_by (ts.length, 0)
decreasing_by
  all_goals
    apply Prod.Lex.left
    simp only [List.length_cons]
    omega

def arguments (ts : List Token) : Except ReadFailure (List Expr × TokensAfter ts) := do
  let (e, ⟨r, h⟩) ← binary 0 ts
  match r, h with
  | ⟨.punct .comma, _⟩ :: rest, h => do
    let (es, ⟨r', h'⟩) ← arguments rest
    return (e :: es, ⟨r', by simp only [List.length_cons] at h; omega⟩)
  | r, h => return ([e], ⟨r, h⟩)
termination_by (ts.length, 2)
decreasing_by
  · exact Prod.Lex.right _ (Nat.lt_succ_self _)
  · exact Prod.Lex.left _ _ (Nat.lt_of_succ_lt h)

end

def read (ts : List Token) : Except ReadFailure (Expr × TokensAfter ts) := binary 0 ts

def readBracketed (ts : List Token) : Except ReadFailure (Expr × TokensAfter ts) := do
  let ⟨r, h⟩ ← expect (.punct .lbracket) ts
  let (a, ⟨r', h'⟩) ← read r
  let ⟨r'', h''⟩ ← expect (.punct .rbracket) r'
  return (a, ⟨r'', by omega⟩)

end BrownLang.Expr

namespace BrownLang.Target

open Reader

def read (ts : List Token) : Except ReadFailure (Target × TokensAfter ts) :=
  match ts with
  | ⟨.punct .lbracket, p⟩ :: rest => do
    let (a, r) ← Expr.readBracketed (⟨.punct .lbracket, p⟩ :: rest)
    return (.word a, r)
  | ⟨.name "b", _⟩ :: ⟨.punct .lbracket, p⟩ :: rest => do
    let (a, ⟨r, h⟩) ← Expr.readBracketed (⟨.punct .lbracket, p⟩ :: rest)
    return (.byte a, ⟨r, Nat.lt_succ_of_lt h⟩)
  | ts => do
    let (x, r) ← expectName ts
    return (.var x, r)

end BrownLang.Target
