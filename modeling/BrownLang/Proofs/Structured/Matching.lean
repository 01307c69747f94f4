import BrownLang.Proofs.Structured.Interpreter

/-!
# Actions that do the same to the store

Two actions are compared by the stores that they leave and by how they end;
control does not matter.  Each of them may be cut short by its bound on steps:
`q` says that this is allowed on the left, `p` that it is allowed on the right.
With `p` false, the right side follows the left one to its end; with `q` false,
the left side follows the right one.
-/

namespace BrownLang

namespace Exec

variable {α β : Type} {p q : Prop}

/-- Results that are the same up to control, as far as neither side is cut short. -/
inductive Matches (p q : Prop) {α : Type} :
    EStateM.Result Halt State α → EStateM.Result Halt State α → Prop
  | ok {a : α} {s t : State} : s.store = t.store → Matches p q (.ok a s) (.ok a t)
  | error {h : Halt} {s t : State} : s.store = t.store → Matches p q (.error h s) (.error h t)
  | both {s t : State} : Matches p q (.error .unfinished s) (.error .unfinished t)
  | left {s : State} {r : EStateM.Result Halt State α} : q → Matches p q (.error .unfinished s) r
  | right {r : EStateM.Result Halt State α} {t : State} : p → Matches p q r (.error .unfinished t)

/-- On equal stores the two actions have results that match. -/
def Tracks (p q : Prop) {α : Type} (x y : Exec α) : Prop :=
  ∀ s t : State, s.store = t.store → Matches p q (x s) (y t)

theorem Matches.bind {x y : Exec α} {f g : α → Exec β} {s t : State} (h : Matches p q (x s) (y t))
    (hfg : ∀ a s' t', y t = .ok a t' → s'.store = t'.store → Matches p q (f a s') (g a t')) :
    Matches p q ((x >>= f) s) ((y >>= g) t) := by
  generalize hx : x s = r at h
  generalize hy : y t = r' at h
  cases h with
  | ok hstore =>
      rw [bind_of_ok hx, bind_of_ok hy]
      exact hfg _ _ _ hy hstore
  | error hstore =>
      rw [bind_of_error hx, bind_of_error hy]
      exact .error hstore
  | both =>
      rw [bind_of_error hx, bind_of_error hy]
      exact .both
  | left hq =>
      rw [bind_of_error hx]
      exact .left hq
  | right hp =>
      rw [bind_of_error hy]
      exact .right hp

theorem Tracks.bind {x y : Exec α} {f g : α → Exec β} (h : Tracks p q x y)
    (hfg : ∀ a, Tracks p q (f a) (g a)) : Tracks p q (x >>= f) (y >>= g) := by
  intro s t hstore
  exact (h s t hstore).bind fun a s' t' _ => hfg a s' t'

theorem Tracks.of_local {x : Exec α} (hx : Local x) : Tracks p q x x := by
  intro s t hstore
  have hs := State.eq_withControl_of_store_eq hstore
  rw [hs, hx.under]
  cases x t with
  | ok a u => exact .ok rfl
  | error h u => exact .error rfl

mutual

theorem tracks_eval {c d : Caller} (h : ∀ f args, Tracks p q (c f args) (d f args)) (e : Expr) :
    Tracks p q (e.eval c) (e.eval d) := by
  match e with
  | .lit n => exact .of_local (.pure n)
  | .var x => exact .of_local (local_readVar x)
  | .addr x => exact .of_local (local_addressOf x)
  | .word a => exact (tracks_eval h a).bind fun i => .of_local (local_readWord i)
  | .byte a => exact (tracks_eval h a).bind fun i => .of_local (local_readByte i)
  | .bin op l r =>
      refine (tracks_eval h l).bind fun v => ?_
      exact (tracks_eval h r).bind fun w => .of_local (.lift _)
  | .call f es => exact (tracks_evalAll h es).bind fun vs => h f vs

theorem tracks_evalAll {c d : Caller} (h : ∀ f args, Tracks p q (c f args) (d f args))
    (es : List Expr) : Tracks p q (Expr.evalAll c es) (Expr.evalAll d es) := by
  match es with
  | [] => exact .of_local (.pure [])
  | e :: es =>
      refine (tracks_eval h e).bind fun v => ?_
      exact (tracks_evalAll h es).bind fun vs => .of_local (.pure _)

end

theorem tracks_store {c d : Caller} (h : ∀ f args, Tracks p q (c f args) (d f args)) (v : Nat)
    (target : Target) : Tracks p q (target.store c v) (target.store d v) := by
  cases target with
  | var x => exact .of_local (local_writeVar x v)
  | word a => exact (tracks_eval h a).bind fun i => .of_local (local_writeWord i v)
  | byte a => exact (tracks_eval h a).bind fun i => .of_local (local_writeByte i v)

/-! ## Ends of programs -/

theorem Matches.symm {r r' : EStateM.Result Halt State α} (h : Matches p q r r') :
    Matches q p r' r := by
  cases h with
  | ok hstore => exact .ok hstore.symm
  | error hstore => exact .error hstore.symm
  | both => exact .both
  | left hq => exact .right hq
  | right hp => exact .left hp

theorem Matches.outcome {r r' : EStateM.Result Halt State Unit} (h : Matches False q r r')
    {o : Outcome} (ho : Result.outcome? r = some o) :
    Result.outcome? r' = some o ∧ (Result.state r').store = (Result.state r).store := by
  cases h with
  | ok hstore => exact ⟨ho, hstore.symm⟩
  | @error halt s t hstore =>
      have hsame : Result.outcome? (.error halt t) = Result.outcome? (.error halt s) := by
        cases halt <;> rfl
      exact ⟨hsame.trans ho, hstore.symm⟩
  | both => exact nomatch ho
  | left hq => exact nomatch ho
  | right hp => exact hp.elim

end Exec

end BrownLang
