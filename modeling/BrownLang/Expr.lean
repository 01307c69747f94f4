import BrownLang.Operator

/-!
# Expressions

The operator of a binary expression is a `BinOp`.  The grammar has the sixteen
known ones only; a tree that is built by hand may hold any other symbol, which
is then a fault when the expression is evaluated.
-/

namespace BrownLang

inductive BinOp where
  | known (o : Operator)
  | unknown (symbol : String)
  deriving DecidableEq, Repr

namespace BinOp

def symbol : BinOp → String
  | known o => o.symbol
  | unknown s => s

end BinOp

/--
`word a` and `byte a` are the word and the byte in memory at the address `a`,
and `addr x` is the address of the variable `x`.
-/
inductive Expr where
  | lit (n : Nat)
  | var (x : String)
  | addr (x : String)
  | word (a : Expr)
  | byte (a : Expr)
  | bin (op : BinOp) (l r : Expr)
  | call (f : String) (args : List Expr)
  deriving Inhabited

namespace Expr

/-! ## Equality -/

mutual

def same : Expr → Expr → Bool
  | lit m, lit n => m == n
  | var x, var y => x == y
  | addr x, addr y => x == y
  | word a, word b => same a b
  | byte a, byte b => same a b
  | bin o l r, bin p m s => o == p && same l m && same r s
  | call f as, call g bs => f == g && sameAll as bs
  | _, _ => false

def sameAll : List Expr → List Expr → Bool
  | [], [] => true
  | a :: as, b :: bs => same a b && sameAll as bs
  | _, _ => false

end

mutual

theorem same_iff (a b : Expr) : same a b = true ↔ a = b := by
  match a, b with
  | lit m, b => cases b <;> simp [same]
  | var x, b => cases b <;> simp [same]
  | addr x, b => cases b <;> simp [same]
  | word a, b =>
    cases b with
    | word b => simp [same, same_iff a b]
    | _ => simp [same]
  | byte a, b =>
    cases b with
    | byte b => simp [same, same_iff a b]
    | _ => simp [same]
  | bin o l r, b =>
    cases b with
    | bin p m s => simp [same, same_iff l m, same_iff r s, and_assoc]
    | _ => simp [same]
  | call f as, b =>
    cases b with
    | call g bs => simp [same, sameAll_iff as bs]
    | _ => simp [same]

theorem sameAll_iff (as bs : List Expr) : sameAll as bs = true ↔ as = bs := by
  match as, bs with
  | [], [] => simp [sameAll]
  | [], _ :: _ => simp [sameAll]
  | _ :: _, [] => simp [sameAll]
  | a :: as, b :: bs => simp [sameAll, same_iff a b, sameAll_iff as bs]

end

instance : DecidableEq Expr := fun a b => decidable_of_iff _ (same_iff a b)

end Expr

inductive Target where
  | var (x : String)
  | word (a : Expr)
  | byte (a : Expr)
  deriving DecidableEq, Inhabited

end BrownLang
