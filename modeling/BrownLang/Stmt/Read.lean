import BrownLang.Expr.Read
import BrownLang.Stmt

/-!
# Reading statements

A block is read up to a token that ends it, which stays where it is.  Between
two statements there is a line end; an empty line is nothing.
-/

namespace BrownLang.Stmt

open Reader

inductive Ending where
  | file
  | body
  | branch
  deriving DecidableEq, Repr

def Ending.stopsAt : Ending → Kind → Bool
  | file, .eof => true
  | body, .keyword .kwEnd => true
  | branch, .keyword .kwEnd | branch, .keyword .kwElse => true
  | _, _ => false

/-- After a statement stands a line end or the end of its block; a line end stays where it is. -/
def lineEnd (ending : Ending) (ts : List Token) : Except ReadFailure Unit :=
  let k := kindAt ts
  if k = .newline ∨ k = .eof ∨ ending.stopsAt k then .ok ()
  else failAt ts (.expectedLineEnd k)

def paramsFrom (before : List String) (ts : List Token) :
    Except ReadFailure (List String × TokensAfter ts) :=
  match ts with
  | ⟨.name x, p⟩ :: rest =>
    if x ∈ before then .error ⟨.duplicateParameter x, some p⟩
    else
      match rest with
      | ⟨.punct .comma, _⟩ :: more => do
        let (ps, ⟨r, h⟩) ← paramsFrom (before ++ [x]) more
        return (ps, ⟨r, by simp only [List.length_cons]; omega⟩)
      | rest => do
        let ⟨r, h⟩ ← expect (.punct .rparen) rest
        return (before ++ [x], ⟨r, Nat.lt_succ_of_lt h⟩)
  | _ => failAt ts (.expected .name (kindAt ts))

def params (ts : List Token) : Except ReadFailure (List String × TokensAfter ts) := do
  let ⟨r, h⟩ ← expect (.punct .lparen) ts
  match r, h with
  | ⟨.punct .rparen, _⟩ :: rest, h =>
    return ([], ⟨rest, by simp only [List.length_cons] at h; omega⟩)
  | r, h => do
    let (ps, ⟨r', h'⟩) ← paramsFrom [] r
    return (ps, ⟨r', Nat.lt_trans h' h⟩)

def preserveMark (ts : List Token) : Bool × TokensWithin ts :=
  match ts with
  | ⟨.keyword .kwPreserve, _⟩ :: rest => (true, ⟨rest, Nat.le_succ _⟩)
  | ts => (false, .all ts)

/-- Reads an assignment or a call, which end where their expression or target ends. -/
def simple (o : Origin) (ts : List Token) : Except ReadFailure (Stmt × TokensAfter ts) := do
  let loc := ts.head?.map fun t => o.locate t.position
  let (e, ⟨r, h⟩) ← Expr.read ts
  match r, h with
  | ⟨.punct .arrow, _⟩ :: rest, h => do
    let (t, ⟨r', h'⟩) ← Target.read rest
    return (.assign t e loc, ⟨r', by simp only [List.length_cons] at h; omega⟩)
  | r, h =>
    match e with
    | .call f args => return (.eval (.call f args) loc, ⟨r, h⟩)
    | _ => failAt ts .notACall

mutual

def read (o : Origin) (ts : List Token) : Except ReadFailure (Stmt × TokensAfter ts) :=
  match ts with
  | ⟨.keyword .kwIf, p⟩ :: rest => do
    let (c, ⟨r, h⟩) ← Expr.read rest
    let (yes, ⟨r₁, h₁⟩) ← readBlock o .branch r
    match r₁, h₁ with
    | ⟨.keyword .kwElse, _⟩ :: r₂, h₁ => do
      let (no, ⟨r₃, h₃⟩) ← readBlock o .body r₂
      let ⟨r₄, h₄⟩ ← expect (.keyword .kwEnd) r₃
      return (.ifElse c yes no (some (o.locate p)),
        ⟨r₄, by simp only [List.length_cons] at h₁ ⊢; omega⟩)
    | r₁, h₁ => do
      let ⟨r₂, h₂⟩ ← expect (.keyword .kwEnd) r₁
      return (.ifThen c yes (some (o.locate p)), ⟨r₂, by simp only [List.length_cons]; omega⟩)
  | ⟨.keyword .kwWhile, p⟩ :: rest => do
    let (c, ⟨r, h⟩) ← Expr.read rest
    let (body, ⟨r₁, h₁⟩) ← readBlock o .body r
    let ⟨r₂, h₂⟩ ← expect (.keyword .kwEnd) r₁
    return (.whileLoop c body (some (o.locate p)),
      ⟨r₂, by simp only [List.length_cons]; omega⟩)
  | ⟨.keyword .kwFor, p⟩ :: rest => do
    let (x, ⟨r, h⟩) ← expectName rest
    let ⟨r₁, h₁⟩ ← expect (.keyword .kwFrom) r
    let (a, ⟨r₂, h₂⟩) ← Expr.read r₁
    let ⟨r₃, h₃⟩ ← expect (.keyword .kwTo) r₂
    let (b, ⟨r₄, h₄⟩) ← Expr.read r₃
    let (body, ⟨r₅, h₅⟩) ← readBlock o .body r₄
    let ⟨r₆, h₆⟩ ← expect (.keyword .kwEnd) r₅
    return (.forLoop x a b body (some (o.locate p)),
      ⟨r₆, by simp only [List.length_cons]; omega⟩)
  | ⟨.keyword .kwFun, p⟩ :: rest => do
    let (f, ⟨r, h⟩) ← expectName rest
    let (ps, ⟨r₁, h₁⟩) ← params r
    let (keep, ⟨r₂, h₂⟩) := preserveMark r₁
    let (body, ⟨r₃, h₃⟩) ← readBlock o .body r₂
    let ⟨r₄, h₄⟩ ← expect (.keyword .kwEnd) r₃
    return (.function f ps keep body (some (o.locate p)),
      ⟨r₄, by simp only [List.length_cons]; omega⟩)
  | ⟨.keyword .kwGoto, p⟩ :: rest => do
    let (l, ⟨r, h⟩) ← expectName rest
    return (.goto l (some (o.locate p)), ⟨r, Nat.lt_succ_of_lt h⟩)
  | ⟨.name l, p⟩ :: ⟨.punct .colon, _⟩ :: rest =>
    .ok (.label l (some (o.locate p)), ⟨rest, by simp only [List.length_cons]; omega⟩)
  | ts => simple o ts
termination_by (ts.length, 0)
decreasing_by
  all_goals
    apply Prod.Lex.left
    simp only [List.length_cons] at *
    omega

def readBlock (o : Origin) (ending : Ending) (ts : List Token) :
    Except ReadFailure (Block × TokensWithin ts) :=
  match ts with
  | [] => if ending = .file then .ok ([], .all []) else failAt [] .missingEnd
  | t :: rest =>
    if ending.stopsAt t.lexeme.kind then .ok ([], .all (t :: rest))
    else if t.lexeme = .newline then do
      let (ss, ⟨r, h⟩) ← readBlock o ending rest
      return (ss, ⟨r, Nat.le_succ_of_le h⟩)
    else do
      let (s, ⟨r, h⟩) ← read o (t :: rest)
      lineEnd ending r
      let (ss, ⟨r', h'⟩) ← readBlock o ending r
      return (s :: ss, ⟨r', Nat.le_trans h' (Nat.le_of_lt h)⟩)
termination_by (ts.length, 1)
decreasing_by
  · exact Prod.Lex.left _ _ (Nat.lt_succ_self _)
  · exact Prod.Lex.right _ (Nat.lt_succ_self _)
  · exact Prod.Lex.left _ _ h

end

end BrownLang.Stmt
