import BrownLang.Expr
import BrownLang.Location

/-!
# Statements

Every statement carries the location it was read from, if it was read from a
text.  Two statements say the same if they differ in locations only:
`Stmt.unlocated` takes the locations out.
-/

namespace BrownLang

/--
In `forLoop`, `first` is the first value of the counter and `bound` the value
that the loop stops before.  `preserve` says that a function restores its parameters
when it returns.
-/
inductive Stmt where
  | assign (target : Target) (value : Expr) (loc : Option Location)
  | forLoop (counter : String) (first bound : Expr) (body : List Stmt) (loc : Option Location)
  | whileLoop (cond : Expr) (body : List Stmt) (loc : Option Location)
  | ifThen (cond : Expr) (yes : List Stmt) (loc : Option Location)
  | ifElse (cond : Expr) (yes no : List Stmt) (loc : Option Location)
  | goto (label : String) (loc : Option Location)
  | label (name : String) (loc : Option Location)
  | function (name : String) (params : List String) (preserve : Bool) (body : List Stmt)
      (loc : Option Location)
  | eval (e : Expr) (loc : Option Location)
  deriving Inhabited

abbrev Block := List Stmt

namespace Stmt

def loc : Stmt → Option Location
  | assign _ _ l | forLoop _ _ _ _ l | whileLoop _ _ l | ifThen _ _ l | ifElse _ _ _ l
  | goto _ l | label _ l | function _ _ _ _ l | eval _ l => l

mutual

def unlocated : Stmt → Stmt
  | assign t e _ => assign t e none
  | forLoop x a b body _ => forLoop x a b (unlocatedAll body) none
  | whileLoop c body _ => whileLoop c (unlocatedAll body) none
  | ifThen c yes _ => ifThen c (unlocatedAll yes) none
  | ifElse c yes no _ => ifElse c (unlocatedAll yes) (unlocatedAll no) none
  | goto l _ => goto l none
  | label l _ => label l none
  | function f ps keep body _ => function f ps keep (unlocatedAll body) none
  | eval e _ => eval e none

def unlocatedAll : List Stmt → List Stmt
  | [] => []
  | s :: rest => unlocated s :: unlocatedAll rest

end

/-! ## Equality up to locations -/

mutual

def same : Stmt → Stmt → Bool
  | assign t e _, assign u f _ => t == u && e == f
  | forLoop x a b body _, forLoop y c d rest _ => x == y && a == c && b == d && sameAll body rest
  | whileLoop c body _, whileLoop d rest _ => c == d && sameAll body rest
  | ifThen c yes _, ifThen d yes' _ => c == d && sameAll yes yes'
  | ifElse c yes no _, ifElse d yes' no' _ => c == d && sameAll yes yes' && sameAll no no'
  | goto l _, goto m _ => l == m
  | label l _, label m _ => l == m
  | function f ps keep body _, function g qs save rest _ =>
    f == g && ps == qs && keep == save && sameAll body rest
  | eval e _, eval f _ => e == f
  | _, _ => false

def sameAll : List Stmt → List Stmt → Bool
  | [], [] => true
  | s :: ss, t :: ts => same s t && sameAll ss ts
  | _, _ => false

end

mutual

theorem same_iff (s t : Stmt) : same s t = true ↔ s.unlocated = t.unlocated := by
  match s, t with
  | assign .., t => cases t <;> simp [same, unlocated]
  | forLoop _ _ _ body _, t =>
    cases t with
    | forLoop _ _ _ rest _ => simp [same, unlocated, sameAll_iff body rest, and_assoc]
    | _ => simp [same, unlocated]
  | whileLoop _ body _, t =>
    cases t with
    | whileLoop _ rest _ => simp [same, unlocated, sameAll_iff body rest]
    | _ => simp [same, unlocated]
  | ifThen _ yes _, t =>
    cases t with
    | ifThen _ yes' _ => simp [same, unlocated, sameAll_iff yes yes']
    | _ => simp [same, unlocated]
  | ifElse _ yes no _, t =>
    cases t with
    | ifElse _ yes' no' _ =>
      simp [same, unlocated, sameAll_iff yes yes', sameAll_iff no no', and_assoc]
    | _ => simp [same, unlocated]
  | goto .., t => cases t <;> simp [same, unlocated]
  | label .., t => cases t <;> simp [same, unlocated]
  | function _ _ _ body _, t =>
    cases t with
    | function _ _ _ rest _ => simp [same, unlocated, sameAll_iff body rest, and_assoc]
    | _ => simp [same, unlocated]
  | eval .., t => cases t <;> simp [same, unlocated]

theorem sameAll_iff (ss ts : List Stmt) :
    sameAll ss ts = true ↔ unlocatedAll ss = unlocatedAll ts := by
  match ss, ts with
  | [], [] => simp [sameAll, unlocatedAll]
  | [], _ :: _ => simp [sameAll, unlocatedAll]
  | _ :: _, [] => simp [sameAll, unlocatedAll]
  | s :: ss, t :: ts => simp [sameAll, unlocatedAll, same_iff s t, sameAll_iff ss ts]

end

end Stmt

end BrownLang
