import BrownLang.Proofs.Execution.Transition
import BrownLang.Proofs.Screen.Textures

/-!
# What only accumulates

In the course of a run memory grows, variables and sprites come, and numbers
are drawn; nothing of this is taken back.  So what is known of a late state,
that memory is not too long yet, or that all numbers were drawn fairly, is
known of all earlier states too.
-/

namespace BrownLang

/-! ## Drawing numbers -/

namespace Generator

def after (g : Generator) (reqs : List (Nat × Nat)) : Generator :=
  reqs.foldl (fun g req => (g.draw req.1 req.2).2) g

/-- The answers to `reqs` are in the ranges asked for, as far as there is a number in them. -/
def InRange (g : Generator) : List (Nat × Nat) → Prop
  | [] => True
  | (low, high) :: reqs =>
    (low < high → low ≤ (g.draw low high).1 ∧ (g.draw low high).1 < high) ∧
      InRange (g.draw low high).2 reqs

/-- What was drawn on the way from `g` to `g'` was in the range asked for. -/
def Honest (g g' : Generator) : Prop := ∀ reqs, g' = g.after reqs → g.InRange reqs

@[simp] theorem after_append (g : Generator) (reqs more : List (Nat × Nat)) :
    g.after (reqs ++ more) = (g.after reqs).after more :=
  List.foldl_append

@[simp] theorem inRange_append (g : Generator) (reqs more : List (Nat × Nat)) :
    g.InRange (reqs ++ more) ↔ g.InRange reqs ∧ (g.after reqs).InRange more := by
  induction reqs generalizing g with
  | nil => simp [InRange, after]
  | cons req reqs ih => simp [InRange, after, ih, and_assoc]

theorem Honest.earlier {g g' : Generator} {reqs : List (Nat × Nat)}
    (h : g.Honest (g'.after reqs)) : g.Honest g' := by
  intro reqs' hreqs'
  have hall := h (reqs' ++ reqs) (by rw [after_append, ← hreqs'])
  exact ((inRange_append _ _ _).mp hall).1

theorem Honest.draw {g g' : Generator} {reqs : List (Nat × Nat)} (hg' : g' = g.after reqs)
    {low high : Nat} (h : g.Honest (g'.draw low high).2) (hlt : low < high) :
    low ≤ (g'.draw low high).1 ∧ (g'.draw low high).1 < high := by
  have hall := h (reqs ++ [(low, high)]) (by rw [after_append, ← hg']; rfl)
  rw [inRange_append, ← hg'] at hall
  exact hall.2.1 hlt

theorem requests_after_scripted (rest : List Nat) (asked reqs : List (Nat × Nat)) :
    ((scripted rest asked).after reqs).requests = asked.reverse ++ reqs := by
  induction reqs generalizing rest asked with
  | nil => simp [after, requests]
  | cons req reqs ih =>
      have hlater (rest : List Nat) := ih rest (req :: asked)
      cases rest with
      | nil => simpa [after, draw] using hlater []
      | cons v rest => simpa [after, draw] using hlater rest

theorem honest_scripted_iff {rest : List Nat} {asked reqs : List (Nat × Nat)} :
    (scripted rest asked).Honest ((scripted rest asked).after reqs) ↔
      (scripted rest asked).InRange reqs := by
  constructor
  · intro h
    exact h reqs rfl
  · intro h reqs' hreqs'
    have hrequests := congrArg requests hreqs'
    rw [requests_after_scripted, requests_after_scripted, List.append_cancel_left_eq] at hrequests
    rwa [← hrequests]

end Generator

/-! ## States -/

namespace State

structure Accrues (s t : State) : Prop where
  grows : s.Grows t
  sprites_le : s.canvas.sprites.size ≤ t.canvas.sprites.size
  draws : ∃ reqs, t.generator = s.generator.after reqs

theorem Accrues.refl (s : State) : Accrues s s :=
  ⟨.refl s, Nat.le_refl _, [], rfl⟩

theorem Accrues.trans (s t u : State) (h : Accrues s t) (k : Accrues t u) : Accrues s u := by
  obtain ⟨reqs, hreqs⟩ := h.draws
  obtain ⟨more, hmore⟩ := k.draws
  refine ⟨h.grows.trans k.grows, Nat.le_trans h.sprites_le k.sprites_le, reqs ++ more, ?_⟩
  rw [Generator.after_append, ← hreqs, hmore]

theorem Accrues.of_grows {s t : State} (h : s.Grows t) (hc : t.canvas = s.canvas)
    (hg : t.generator = s.generator) : Accrues s t :=
  ⟨h, Nat.le_of_eq (by rw [hc]), [], hg⟩

theorem Accrues.of_eq {s t : State} (hm : t.memory.size = s.memory.size) (hv : t.vars = s.vars)
    (hc : t.canvas = s.canvas) (hg : t.generator = s.generator) : Accrues s t :=
  .of_grows (.of_eq hm hv) hc hg

structure Accounted (g : Generator) (s : State) : Prop where
  addressed : ∀ x a, s.vars.lookup x = some a → a ≤ s.memory.size
  draws : ∃ reqs, s.generator = g.after reqs

theorem Accounted.accrues {g : Generator} {s t : State} (h : s.Accounted g) (k : s.Accrues t) :
    t.Accounted g where
  addressed x a ha := by
    rcases k.grows.fresh x a ha with hold | hnew
    · exact Nat.le_trans (h.addressed x a hold) k.grows.size_le
    · omega
  draws := by
    obtain ⟨reqs, hreqs⟩ := h.draws
    obtain ⟨more, hmore⟩ := k.draws
    exact ⟨reqs ++ more, by rw [Generator.after_append, ← hreqs, hmore]⟩

structure Bounded (g : Generator) (s : State) : Prop where
  memory : s.memory.size < Word.count
  sprites : s.canvas.sprites.size < Word.count
  honest : g.Honest s.generator

theorem Bounded.earlier {g : Generator} {s t : State} (h : t.Bounded g) (k : s.Accrues t) :
    s.Bounded g := by
  obtain ⟨reqs, hreqs⟩ := k.draws
  have hhonest := h.honest
  rw [hreqs] at hhonest
  exact ⟨Nat.lt_of_le_of_lt k.grows.size_le h.memory,
    Nat.lt_of_le_of_lt k.sprites_le h.sprites, hhonest.earlier⟩

end State

/-! ## Actions -/

def Coupling.accrual : Coupling := .along State.Accrues .refl .trans

theorem Sprites.size_of_create {sprites sprites' : Sprites} {data : List UInt8} {w h n : Nat}
    {color : Int} (hcreate : sprites.create data w h color = .ok (sprites', n)) :
    n = sprites.size ∧ sprites'.size = sprites.size + 1 := by
  obtain ⟨-, rfl, rfl⟩ := create_eq_ok.mp hcreate
  exact ⟨rfl, Array.size_push _⟩

theorem Canvas.sprites_le_perform (c : Canvas) (command : DrawCommand) :
    c.sprites.size ≤ (c.perform command).1.sprites.size :=
  (c.sprites_prefix_perform command).length_le

theorem Coupling.accrues_of_ok {α : Type} {x : Exec α} (hx : accrual.Rel x x) {s t : State} {a : α}
    (h : x s = .ok a t) : s.Accrues t := by
  have haccrues := hx.2 s
  rwa [h] at haccrues

namespace Machine

open Coupling

theorem accrual_addressOf (x : String) : accrual.Rel (Exec.addressOf x) (Exec.addressOf x) := by
  refine ⟨rfl, fun s => ?_⟩
  have hgrows := (Exec.local_addressOf x).grows s
  cases hx : s.vars.lookup x with
  | some a =>
      rw [Exec.addressOf_of_some hx]
      exact .refl s
  | none =>
      rw [Exec.addressOf_of_none hx] at hgrows ⊢
      exact .of_grows hgrows rfl rfl

theorem accrual_writeWord (a : Nat) (v : Int) :
    accrual.Rel (Exec.writeWord a v) (Exec.writeWord a v) :=
  accrual.bind (along_check _ _) fun _ =>
    along_modify fun _ => .of_eq (Memory.size_setWord _ _ _) rfl rfl rfl

theorem accrual_readVar (x : String) : accrual.Rel (Exec.readVar x) (Exec.readVar x) :=
  accrual.bind (accrual_addressOf x) along_readWord

theorem accrual_writeVar (x : String) (v : Int) :
    accrual.Rel (Exec.writeVar x v) (Exec.writeVar x v) :=
  accrual.bind (accrual_addressOf x) fun a => accrual_writeWord a v

theorem accrual_readVars (xs : List String) :
    accrual.Rel (Exec.readVars xs) (Exec.readVars xs) := by
  induction xs with
  | nil => exact accrual.pure []
  | cons x xs ih =>
      exact accrual.bind (accrual_readVar x) fun v => accrual.bind ih fun vs => accrual.pure _

theorem accrual_writeVars (xs : List String) (vs : List Nat) :
    accrual.Rel (Exec.writeVars xs vs) (Exec.writeVars xs vs) := by
  induction xs generalizing vs with
  | nil => exact accrual.pure ()
  | cons x xs ih => exact accrual.bind (accrual_writeVar x _) fun _ => ih vs.tail

theorem accrual_prepare (params : List String) (preserve : Bool) (args : List Nat) :
    accrual.Rel (prepare params preserve args) (prepare params preserve args) :=
  accrual.bind (accrual_readVars _) fun saved =>
    accrual.bind (accrual_writeVars _ _) fun _ => accrual.pure saved

theorem covers_accrual (p : Program) (o : Options) : accrual.Covers p o o := by
  refine covers_along fun s t h => ?_
  cases h with
  | allocate _ hnew => exact .of_grows (Exec.grows_allocate _ s) rfl rfl
  | setWord a v => exact .of_eq (Memory.size_setWord _ _ _) rfl rfl rfl
  | setByte a b => exact .of_eq (Memory.size_setByte _ _ _) rfl rfl rfl
  | draw low high => exact ⟨.of_eq rfl rfl, Nat.le_refl _, [(low, high)], rfl⟩
  | perform c => exact ⟨.of_eq rfl rfl, s.canvas.sprites_le_perform c, [], rfl⟩
  | _ => exact .of_eq rfl rfl rfl rfl

end Machine

end BrownLang
