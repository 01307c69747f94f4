import BrownLang.Machine.Run
import BrownLang.Proofs.Execution.Local

/-!
# Evaluation and the calls it makes

Apart from the calls in it, evaluating an expression is local.  So whatever
holds between the states before and after a local action and before and after
a call holds between the states before and after an evaluation, and an
evaluation that halts does so on its own or because a call in it does.

An instruction first evaluates its operands and then has an effect that
evaluates nothing.
-/

namespace BrownLang

/-- A relation between an earlier and a later state that allows for all local actions. -/
structure Evolution (R : State → State → Prop) : Prop where
  trans : ∀ {s t u}, R s t → R t u → R s u
  of_control_eq : ∀ {s t}, t.control = s.control → s.Grows t → R s t

namespace Evolution

variable {R : State → State → Prop}

theorem refl (hR : Evolution R) (s : State) : R s s := hR.of_control_eq rfl (.refl s)

theorem of_local (hR : Evolution R) {α : Type} {x : Exec α} (hx : Exec.Local x) (s : State) :
    R s (Exec.Result.state (x s)) :=
  hR.of_control_eq (hx.control_eq s) (hx.grows s)

theorem of_local_ok (hR : Evolution R) {α : Type} {x : Exec α} (hx : Exec.Local x) {s t : State}
    {a : α} (h : x s = .ok a t) : R s t := by
  have := hR.of_local hx s
  rwa [h] at this

theorem of_local_error (hR : Evolution R) {α : Type} {x : Exec α} (hx : Exec.Local x)
    {s t : State} {e : Halt} (h : x s = .error e t) : R s t := by
  have := hR.of_local hx s
  rwa [h] at this

end Evolution

namespace Expr

mutual

/-- In the course of evaluating an expression in `s`, the function `f` is called in `t`. -/
inductive Calls (call : Caller) : Expr → State → String → List Nat → State → Prop
  | word {a s f args t} : Calls call a s f args t → Calls call (.word a) s f args t
  | byte {a s f args t} : Calls call a s f args t → Calls call (.byte a) s f args t
  | left {op l r s f args t} : Calls call l s f args t → Calls call (.bin op l r) s f args t
  | right {op l r s v u f args t} : l.eval call s = .ok v u → Calls call r u f args t →
      Calls call (.bin op l r) s f args t
  | within {g es s f args t} : CallsAll call es s f args t → Calls call (.call g es) s f args t
  | here {f es s args t} : evalAll call es s = .ok args t → Calls call (.call f es) s f args t

inductive CallsAll (call : Caller) : List Expr → State → String → List Nat → State → Prop
  | head {e es s f args t} : Calls call e s f args t → CallsAll call (e :: es) s f args t
  | tail {e es s v u f args t} : e.eval call s = .ok v u → CallsAll call es u f args t →
      CallsAll call (e :: es) s f args t

end

/-! ## How an evaluation goes -/

/--
An action that makes no calls but those in `asks` ends well, or halts on its
own, or halts because one of these calls does.
-/
def Settles (R : State → State → Prop) (call : Caller)
    (asks : String → List Nat → State → Prop) (s : State) {α : Type} :
    EStateM.Result Halt State α → Prop
  | .ok _ t => R s t
  | .error h t => R s t ∨ ∃ f args u, asks f args u ∧ R s u ∧ call f args u = .error h t

section

variable {R : State → State → Prop} (hR : Evolution R) {call : Caller}
  {asks asks' : String → List Nat → State → Prop} {α β : Type}

include hR

theorem Settles.of_local {x : Exec α} (hx : Exec.Local x) (s : State) :
    Settles R call asks s (x s) := by
  have h := hR.of_local hx s
  cases hr : x s with
  | ok a t => rwa [hr] at h
  | error e t => exact .inl (by rwa [hr] at h)

theorem Settles.bind {x : Exec α} {f : α → Exec β} {s : State}
    (hx : Settles R call asks s (x s))
    (hf : ∀ a t, x s = .ok a t → Settles R call asks t (f a t)) :
    Settles R call asks s ((x >>= f) s) := by
  cases hr : x s with
  | error e t =>
      rw [hr] at hx
      rw [Exec.bind_of_error hr]
      exact hx
  | ok a t =>
      rw [hr] at hx
      rw [Exec.bind_of_ok hr]
      have h := hf a t hr
      cases hrf : f a t with
      | ok b u =>
          rw [hrf] at h
          exact hR.trans hx h
      | error e u =>
          rw [hrf] at h
          rcases h with h | ⟨g, args, w, hg, hw, hc⟩
          · exact .inl (hR.trans hx h)
          · exact .inr ⟨g, args, w, hg, hR.trans hx hw, hc⟩

omit hR in
theorem Settles.mono {s : State} {r : EStateM.Result Halt State α} (h : Settles R call asks s r)
    (hasks : ∀ f args u, asks f args u → asks' f args u) : Settles R call asks' s r := by
  cases r with
  | ok a t => exact h
  | error e t =>
      rcases h with h | ⟨f, args, u, hf, hu, hc⟩
      · exact .inl h
      · exact .inr ⟨f, args, u, hasks f args u hf, hu, hc⟩

theorem Settles.of_call (hcall : ∀ f args s v t, call f args s = .ok v t → R s t)
    {f : String} {args : List Nat} {s : State} (hf : asks f args s) :
    Settles R call asks s (call f args s) := by
  cases hr : call f args s with
  | ok v t => exact hcall f args s v t hr
  | error e t => exact .inr ⟨f, args, s, hf, hR.refl s, hr⟩

mutual

theorem eval_settles (hcall : ∀ f args s v t, call f args s = .ok v t → R s t)
    (e : Expr) (s : State) :
    Settles R call (e.Calls call s) s (e.eval call s) := by
  match e with
  | .lit n => exact .of_local hR (.pure n) s
  | .var x => exact .of_local hR (Exec.local_readVar x) s
  | .addr x => exact .of_local hR (Exec.local_addressOf x) s
  | .word a =>
      refine .bind hR ((eval_settles hcall a s).mono fun _ _ _ => .word) fun i t _ => ?_
      exact .of_local hR (Exec.local_readWord i) t
  | .byte a =>
      refine .bind hR ((eval_settles hcall a s).mono fun _ _ _ => .byte) fun i t _ => ?_
      exact .of_local hR (Exec.local_readByte i) t
  | .bin op l r =>
      refine .bind hR ((eval_settles hcall l s).mono fun _ _ _ => .left) fun a t hl => ?_
      refine .bind hR ((eval_settles hcall r t).mono fun _ _ _ => .right hl) fun b u _ => ?_
      exact .of_local hR (.lift _) u
  | .call f es =>
      refine .bind hR ((evalAll_settles hcall es s).mono fun _ _ _ => .within) fun vs t hes => ?_
      exact .of_call hR hcall (.here hes)

theorem evalAll_settles (hcall : ∀ f args s v t, call f args s = .ok v t → R s t)
    (es : List Expr) (s : State) :
    Settles R call (CallsAll call es s) s (evalAll call es s) := by
  match es with
  | [] => exact .of_local hR (.pure []) s
  | e :: es =>
      refine .bind hR ((eval_settles hcall e s).mono fun _ _ _ => .head) fun v t he => ?_
      refine .bind hR ((evalAll_settles hcall es t).mono fun _ _ _ => .tail he) fun vs u _ => ?_
      exact .of_local hR (.pure _) u

end

theorem eval_evolves (hcall : ∀ f args s v t, call f args s = .ok v t → R s t)
    {e : Expr} {s t : State} {v : Nat} (h : e.eval call s = .ok v t) : R s t := by
  have := eval_settles hR hcall e s
  rwa [h] at this

theorem evalAll_evolves (hcall : ∀ f args s v t, call f args s = .ok v t → R s t)
    {es : List Expr} {s t : State} {vs : List Nat} (h : evalAll call es s = .ok vs t) :
    R s t := by
  have := evalAll_settles hR hcall es s
  rwa [h] at this

mutual

theorem Calls.evolves (hcall : ∀ f args s v t, call f args s = .ok v t → R s t)
    {e : Expr} {s : State} {f : String} {args : List Nat} {t : State}
    (h : Calls call e s f args t) : R s t := by
  match h with
  | .word h => exact h.evolves hcall
  | .byte h => exact h.evolves hcall
  | .left h => exact h.evolves hcall
  | .right hl h => exact hR.trans (eval_evolves hR hcall hl) (h.evolves hcall)
  | .within h => exact h.evolves hcall
  | .here hes => exact evalAll_evolves hR hcall hes

theorem CallsAll.evolves (hcall : ∀ f args s v t, call f args s = .ok v t → R s t)
    {es : List Expr} {s : State} {f : String} {args : List Nat} {t : State}
    (h : CallsAll call es s f args t) : R s t := by
  match h with
  | .head h => exact h.evolves hcall
  | .tail he h => exact hR.trans (eval_evolves hR hcall he) (h.evolves hcall)

end

end

end Expr

/-! ## Instructions -/

def Instr.operands : Instr → List Expr
  | .assign (.var _) e => [e]
  | .assign (.word a) e | .assign (.byte a) e => [e, a]
  | .eval e => [e]
  | .jumpFalse c _ => [c]
  | .goto _ | .label _ | .funEntry .. | .funReturn => []

namespace Machine

variable (m : Machine)

def effect : Instr → List Nat → Exec Unit
  | .assign (.var x) _, [v] => Exec.writeVar x v
  | .assign (.word _) _, [v, a] => Exec.writeWord a v
  | .assign (.byte _) _, [v, a] => Exec.writeByte a v
  | .goto l, _ => m.jump l
  | .jumpFalse _ l, [v] => if v = 0 then m.jump l else pure ()
  | _, _ => pure ()

theorem execute_eq_effect (call : Caller) (i : Instr) :
    m.execute call i = Expr.evalAll call i.operands >>= m.effect i := by
  cases i with
  | assign t e =>
      cases t <;>
        simp [execute, Target.store, Instr.operands, Expr.evalAll, effect]
  | goto l => rfl
  | label x => rfl
  | jumpFalse c l => simp [execute, Instr.operands, Expr.evalAll, effect]
  | funEntry f ps keep => rfl
  | funReturn => rfl
  | eval e => simp [execute, Instr.operands, Expr.evalAll, effect]

end Machine

end BrownLang
