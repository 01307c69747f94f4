import BrownLang.Proofs.Execution.Coupling

/-!
# Why a machine halts

A machine halts with a fault, or at the end of a program with the status zero,
or because its steps are used up.  That a call passes a wrong number of
arguments is a fault for a strict machine only.
-/

namespace BrownLang

def Fault.IsMiscount (f : Fault) : Prop := ∃ g wanted given, f = .arity g wanted given

theorem SinkFailure.not_isMiscount (failure : SinkFailure) : ¬ failure.fault.IsMiscount := by
  rintro ⟨g, wanted, given, h⟩
  cases failure <;> exact nomatch h

theorem BinOp.not_isMiscount {op : BinOp} {a b : Nat} {f : Fault} (h : op.apply a b = .error f) :
    ¬ f.IsMiscount := by
  rintro ⟨g, wanted, given, rfl⟩
  cases op with
  | unknown s => exact nomatch h
  | known o =>
      simp only [apply] at h
      split at h <;> cases h

def Coupling.halting (P : Halt → Prop) : Coupling where
  Rel x y := x = y ∧ ∀ s h t, x s = .error h t → P h
  pure a := ⟨rfl, fun s h t herror => by
    change EStateM.Result.ok a s = _ at herror
    exact nomatch herror⟩
  bind := by
    rintro α β x _ f g ⟨rfl, hx⟩ hf
    refine ⟨congrArg _ (funext fun a => (hf a).1), fun s h u hbind => ?_⟩
    rcases Exec.bind_eq_error.mp hbind with herror | ⟨a, t, -, herror⟩
    · exact hx s h u herror
    · exact (hf a).2 t h u herror

namespace Coupling

variable {P : Halt → Prop} {α β : Type}

theorem halting_throw {h : Halt} (hh : P h) :
    (halting P).Rel (throw h : Exec α) (throw h) := by
  refine ⟨rfl, fun s h' t herror => ?_⟩
  injection herror with heq
  exact heq ▸ hh

theorem halting_lift {r : Except Fault α} (hr : ∀ f, r = .error f → P (.fault f)) :
    (halting P).Rel (Exec.lift r) (Exec.lift r) := by
  cases r with
  | ok a => exact (halting P).pure a
  | error f => exact halting_throw (hr f rfl)

theorem halting_get_bind {f : State → Exec β} (hf : ∀ s, (halting P).Rel (f s) (f s)) :
    (halting P).Rel (get >>= f) (get >>= f) :=
  ⟨rfl, fun s => (hf s).2 s⟩

theorem halting_modify (g : State → State) :
    (halting P).Rel (modify g : Exec Unit) (modify g) := by
  refine ⟨rfl, fun s h t herror => ?_⟩
  change EStateM.Result.ok () (g s) = _ at herror
  exact nomatch herror

theorem halting_addressOf (x : String) :
    (halting P).Rel (Exec.addressOf x) (Exec.addressOf x) := by
  refine ⟨rfl, fun s h t herror => ?_⟩
  cases hx : s.vars.lookup x with
  | some a => exact nomatch (Exec.addressOf_of_some hx).symm.trans herror
  | none => exact nomatch (Exec.addressOf_of_none hx).symm.trans herror

end Coupling

namespace Machine

open Coupling

variable {P : Halt → Prop} {p : Program} {o : Options}

theorem covers_halting (hfault : ∀ f : Fault, (f.IsMiscount → o.strictArgs) → P (.fault f))
    (hexit : P (.exit 0)) (hunfinished : P .unfinished) : (halting P).Covers p o o := by
  have hother {f : Fault} (hf : ¬ f.IsMiscount) : P (.fault f) :=
    hfault f fun h => absurd h hf
  have hmapped {α ε : Type} (r : Except ε α) (g : ε → Fault) (hg : ∀ e, ¬ (g e).IsMiscount) :
      (halting P).Rel (Exec.lift (r.mapError g)) (Exec.lift (r.mapError g)) := by
    refine halting_lift fun f hf => ?_
    cases r with
    | ok a => exact nomatch hf
    | error e =>
        cases hf
        exact hother (hg e)
  have hcheck (access : Access) (a : Nat) :
      (halting P).Rel (Exec.check access a) (Exec.check access a) :=
    halting_get_bind fun _ => hmapped _ _ fun _ ⟨_, _, _, h⟩ => nomatch h
  have hperform (c : DrawCommand) : (halting P).Rel (Exec.perform c) (Exec.perform c) := by
    refine (halting P).bind ⟨rfl, fun s h t herror => ?_⟩ fun _ =>
      hmapped _ _ fun _ ⟨_, _, _, h⟩ => nomatch h
    exact nomatch herror
  refine
    { strict_eq := rfl
      addressOf := fun x _ => halting_addressOf x
      readWord := fun _ => (halting P).bind (hcheck _ _) fun _ =>
        halting_get_bind fun _ => (halting P).pure _
      readByte := fun _ => (halting P).bind (hcheck _ _) fun _ =>
        halting_get_bind fun _ => (halting P).pure _
      writeWord := fun _ _ => (halting P).bind (hcheck _ _) fun _ => halting_modify _
      writeByte := fun _ _ => (halting P).bind (hcheck _ _) fun _ => halting_modify _
      apply := fun op _ a b => halting_lift fun f hf => hother (BinOp.not_isMiscount hf)
      write := fun text => ?write
      draw := fun low high => ?draw
      perform := fun c _ => hperform c
      createSprite := fun a w h color _ => rel_createSprite _
        (fun _ _ => halting_get_bind fun _ => hmapped _ _ fun _ ⟨_, _, _, h⟩ => nomatch h)
        hperform a w h color
      refuse := fun f hf => halting_throw (hfault f ?refuse)
      exit := halting_throw hexit
      unfinished := halting_throw hunfinished
      here := halting_get_bind fun _ => (halting P).pure _
      jumpTo := fun _ => halting_modify _
      record := fun _ => halting_modify _
      pushFrame := fun _ _ => halting_modify _
      popFrame := halting_modify _ }
  case write =>
    cases hsink : o.sink with
    | steady => exact halting_modify _
    | failing limit failure =>
        refine halting_get_bind fun s => ?_
        split
        · exact halting_modify _
        · exact halting_throw (hother failure.not_isMiscount)
  case draw =>
    refine ⟨rfl, fun s h t herror => ?_⟩
    exact nomatch herror
  case refuse =>
    rintro ⟨g, wanted, given, rfl⟩
    cases hf with
    | arity hstrict => exact hstrict

end Machine

/-! ## Halts that come from calls -/

namespace Expr

open Exec (bind_eq_error)

variable {P : Halt → Prop} {p : Program} {o : Options} {call : Caller} {h : Halt} {t : State}

mutual

/-- If an evaluation halts otherwise than `P` permits, a call that it makes does. -/
theorem eval_halted (hcovers : (Coupling.halting P).Covers p o o) (hP : ¬ P h) {e : Expr}
    (he : p.Mentions e) {s : State} (herror : e.eval call s = .error h t) :
    ∃ f args u, e.Calls call s f args u ∧ call f args u = .error h t := by
  match e with
  | .lit n => exact absurd ((Coupling.halting P).pure n |>.2 s h t herror) hP
  | .var x =>
      have hx := hcovers.readVar (List.mem_cons_of_mem _ (he.vars (.head _)))
      exact absurd (hx.2 s h t herror) hP
  | .addr x =>
      have hx := hcovers.addressOf x (List.mem_cons_of_mem _ (he.vars (.head _)))
      exact absurd (hx.2 s h t herror) hP
  | .word a =>
      rcases bind_eq_error.mp herror with ha | ⟨i, v, -, hread⟩
      · obtain ⟨f, args, u, hc, hcall⟩ := eval_halted hcovers hP he.word ha
        exact ⟨f, args, u, .word hc, hcall⟩
      · exact absurd ((hcovers.readWord i).2 v h t hread) hP
  | .byte a =>
      rcases bind_eq_error.mp herror with ha | ⟨i, v, -, hread⟩
      · obtain ⟨f, args, u, hc, hcall⟩ := eval_halted hcovers hP he.byte ha
        exact ⟨f, args, u, .byte hc, hcall⟩
      · exact absurd ((hcovers.readByte i).2 v h t hread) hP
  | .bin op l r =>
      rcases bind_eq_error.mp herror with hl | ⟨a, v, hl, herror⟩
      · obtain ⟨f, args, u, hc, hcall⟩ := eval_halted hcovers hP he.left hl
        exact ⟨f, args, u, .left hc, hcall⟩
      rcases bind_eq_error.mp herror with hr | ⟨b, w, -, happly⟩
      · obtain ⟨f, args, u, hc, hcall⟩ := eval_halted hcovers hP he.right hr
        exact ⟨f, args, u, .right hl hc, hcall⟩
      · exact absurd ((hcovers.apply op (he.operators (.head _)) a b).2 w h t happly) hP
  | .call f es =>
      rcases bind_eq_error.mp herror with hes | ⟨vs, v, hes, hcall⟩
      · obtain ⟨g, args, u, hc, hcall⟩ := evalAll_halted hcovers hP he.args hes
        exact ⟨g, args, u, .within hc, hcall⟩
      · exact ⟨f, vs, v, .here hes, hcall⟩

theorem evalAll_halted (hcovers : (Coupling.halting P).Covers p o o) (hP : ¬ P h)
    {es : List Expr} (hes : p.MentionsAll es) {s : State}
    (herror : evalAll call es s = .error h t) :
    ∃ f args u, CallsAll call es s f args u ∧ call f args u = .error h t := by
  match es with
  | [] => exact absurd ((Coupling.halting P).pure ([] : List Nat) |>.2 s h t herror) hP
  | e :: es =>
      rcases bind_eq_error.mp herror with he | ⟨v, w, he, herror⟩
      · obtain ⟨f, args, u, hc, hcall⟩ := eval_halted hcovers hP hes.head he
        exact ⟨f, args, u, .head hc, hcall⟩
      rcases bind_eq_error.mp herror with hrest | ⟨vs, x, -, hpure⟩
      · obtain ⟨f, args, u, hc, hcall⟩ := evalAll_halted hcovers hP hes.tail hrest
        exact ⟨f, args, u, .tail he hc, hcall⟩
      · exact absurd ((Coupling.halting P).pure (v :: vs) |>.2 x h t hpure) hP

end

end Expr

end BrownLang
