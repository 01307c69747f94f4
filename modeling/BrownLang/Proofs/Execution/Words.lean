import Mathlib.Data.List.Basic
import BrownLang.Proofs.Execution.Accrual
import BrownLang.Proofs.Syntax.WellFormed

/-!
# All values are words

Only some operators cut their results to 32 bits, and nothing else does.  Still
every value that comes up is a word, as long as memory and sprites can be
counted by words and random numbers are in the range asked for.  So a word that
is stored is stored as it is, and the operators are those of a 32-bit machine.
-/

namespace BrownLang

/-! ## Operators on words -/

namespace Operator

/-- The operation of a 32-bit machine; a comparison gives one or zero. -/
def onWords : Operator → UInt32 → UInt32 → UInt32
  | or, a, b => a ||| b
  | xor, a, b => a ^^^ b
  | and, a, b => a &&& b
  | eq, a, b => if a = b then 1 else 0
  | ne, a, b => if a ≠ b then 1 else 0
  | lt, a, b => if a < b then 1 else 0
  | gt, a, b => if a > b then 1 else 0
  | le, a, b => if a ≤ b then 1 else 0
  | ge, a, b => if a ≥ b then 1 else 0
  | shl, a, b => a <<< b
  | shr, a, b => a >>> b
  | add, a, b => a + b
  | sub, a, b => a - b
  | mul, a, b => a * b
  | div, a, b => a / b
  | mod, a, b => a % b

def Divides (o : Operator) : Prop := o = div ∨ o = mod

instance (o : Operator) : Decidable o.Divides := inferInstanceAs (Decidable (_ ∨ _))

theorem ofInt_natCast_mod (n : Nat) : Word.ofInt (n : Int) = n % Word.count := by
  unfold Word.ofInt Word.count
  omega

theorem eval?_toNat (o : Operator) (a b : UInt32) :
    o.eval? a.toNat b.toNat =
      if o.Divides ∧ b = 0 then none else some (o.onWords a b).toNat := by
  have hb := b.toNat_lt
  cases o with
  | or | xor | and | shr => simp [eval?, onWords, Divides]
  | eq | ne | lt | gt | le | ge =>
      simp only [eval?, onWords, Divides, reduceCtorEq, or_self, false_and, if_false, ne_eq,
        ← UInt32.toNat_inj, UInt32.lt_iff_toNat_lt, UInt32.le_iff_toNat_le, gt_iff_lt, ge_iff_le]
      split <;> rfl
  | shl =>
      have hshift := ofInt_natCast_mod (a.toNat <<< (b.toNat % 32))
      simp only [eval?, hshift]
      simp [onWords, Divides]
  | add =>
      have hsum : ((a.toNat : Int) + b.toNat) = ((a.toNat + b.toNat : Nat) : Int) := by simp
      simp only [eval?, hsum, ofInt_natCast_mod]
      simp [onWords, Divides]
  | sub =>
      have hdiff : Word.ofInt ((a.toNat : Int) - b.toNat) =
          (Word.count - b.toNat + a.toNat) % Word.count := by
        unfold Word.ofInt Word.count
        omega
      simp [eval?, onWords, Divides, hdiff, UInt32.toNat_sub]
  | mul =>
      have hprod : ((a.toNat : Int) * b.toNat) = ((a.toNat * b.toNat : Nat) : Int) := by simp
      simp only [eval?, hprod, ofInt_natCast_mod]
      simp [onWords, Divides]
  | div | mod =>
      by_cases hzero : b = 0
      · simp [eval?, Divides, hzero]
      · have hne : b.toNat ≠ 0 := fun h => hzero (UInt32.toNat_inj.mp h)
        simp [eval?, onWords, Divides, hzero, hne]

end Operator

theorem Word.exists_toNat {n : Nat} (h : n < Word.count) : ∃ a : UInt32, a.toNat = n :=
  ⟨UInt32.ofNat n, UInt32.toNat_ofNat_of_lt' h⟩

theorem BinOp.apply_toNat (o : Operator) (a b : UInt32) :
    (BinOp.known o).apply a.toNat b.toNat =
      if o.Divides ∧ b = 0 then .error .divisionByZero else .ok (o.onWords a b).toNat := by
  rw [apply, Operator.eval?_toNat]
  by_cases h : o.Divides ∧ b = 0
  · simp [h]
  · simp [h]

theorem BinOp.apply_lt {op : BinOp} {a b v : Nat} (ha : a < Word.count) (hb : b < Word.count)
    (h : op.apply a b = .ok v) : v < Word.count := by
  cases op with
  | unknown s => cases h
  | known o =>
      obtain ⟨a, rfl⟩ := Word.exists_toNat ha
      obtain ⟨b, rfl⟩ := Word.exists_toNat hb
      rw [apply_toNat] at h
      split at h
      · cases h
      · cases h
        exact (o.onWords a b).toNat_lt

/-! ## Operands -/

theorem Instr.WellFormed.operands {x : Instr} (h : x.WellFormed) :
    Expr.wellFormedAll x.operands := by
  cases h with
  | @assign t e ht he =>
      cases t with
      | var x => simp [Instr.operands, Expr.wellFormedAll, he]
      | word a | byte a =>
          have ha : a.wellFormed := ht
          simp [Instr.operands, Expr.wellFormedAll, he, ha]
  | jumpFalse hc _ => simp [Instr.operands, Expr.wellFormedAll, hc]
  | eval _ he => simp [Instr.operands, Expr.wellFormedAll, he]
  | goto | label | funEntry | funReturn => rfl

namespace Expr

mutual

/-- In the course of evaluating an expression in `s`, the expression `e` is evaluated in `t`. -/
inductive Evaluates (call : Caller) : Expr → State → Expr → State → Prop
  | self {e s} : Evaluates call e s e s
  | word {a s e t} : Evaluates call a s e t → Evaluates call (.word a) s e t
  | byte {a s e t} : Evaluates call a s e t → Evaluates call (.byte a) s e t
  | left {op l r s e t} : Evaluates call l s e t → Evaluates call (.bin op l r) s e t
  | right {op l r s v u e t} : l.eval call s = .ok v u → Evaluates call r u e t →
      Evaluates call (.bin op l r) s e t
  | within {f es s e t} : EvaluatesAll call es s e t → Evaluates call (.call f es) s e t

inductive EvaluatesAll (call : Caller) : List Expr → State → Expr → State → Prop
  | head {e es s e' t} : Evaluates call e s e' t → EvaluatesAll call (e :: es) s e' t
  | tail {e es s v u e' t} : e.eval call s = .ok v u → EvaluatesAll call es u e' t →
      EvaluatesAll call (e :: es) s e' t

end

end Expr

/-! ## Values -/

namespace Exec

theorem readWord_lt {a : Nat} {s t : State} {v : Nat} (h : readWord a s = .ok v t) :
    v < Word.count := by
  obtain ⟨_, u, -, h⟩ := bind_eq_ok.mp h
  cases h
  exact Word.ofBytes_lt _ _ _ _

theorem readByte_lt {a : Nat} {s t : State} {v : Nat} (h : readByte a s = .ok v t) :
    v < Word.count := by
  obtain ⟨_, u, -, h⟩ := bind_eq_ok.mp h
  cases h
  exact Nat.lt_trans (t.memory.byteAt a).toNat_lt (by decide)

theorem readVar_lt {x : String} {s t : State} {v : Nat} (h : readVar x s = .ok v t) :
    v < Word.count := by
  obtain ⟨a, u, -, h⟩ := bind_eq_ok.mp h
  exact readWord_lt h

theorem addressOf_lt {x : String} {g : Generator} {s t : State} {a : Nat} (hs : s.Accounted g)
    (h : addressOf x s = .ok a t) (ht : t.Bounded g) : a < Word.count := by
  have hmemory := ht.memory
  cases hx : s.vars.lookup x with
  | some b =>
      rw [addressOf_of_some hx] at h
      cases h
      exact Nat.lt_of_le_of_lt (hs.addressed x a hx) hmemory
  | none =>
      rw [addressOf_of_none hx] at h
      cases h
      simp only [Memory.size_allocateWord] at hmemory
      omega

theorem draw_lt {low high : Nat} {g : Generator} {s t : State} {v : Nat} (hs : s.Accounted g)
    (hlt : low < high) (h : draw low high s = .ok v t) (ht : t.Bounded g) : v < high := by
  obtain ⟨reqs, hreqs⟩ := hs.draws
  cases h
  exact (ht.honest.draw hreqs hlt).2

theorem perform_createSprite {data : List UInt8} {w h color : Nat} {s t : State} {n : Nat}
    (hperform : perform (.createSprite data w h color) s = .ok (.index n) t) :
    n < t.canvas.sprites.size := by
  obtain ⟨reply, u, hreply, hperform⟩ := bind_eq_ok.mp hperform
  cases hreply
  cases hcreate : s.canvas.sprites.create data w h color with
  | error e =>
      simp only [hcreate] at hperform
      cases hperform
  | ok result =>
      obtain ⟨hn, hsize⟩ := Sprites.size_of_create hcreate
      simp only [hcreate] at hperform
      cases hperform
      dsimp only
      omega

theorem createSprite_lt {addr w h color : Nat} {g : Generator} {s t : State} {v : Nat}
    (hcreate : createSprite addr w h color s = .ok v t) (ht : t.Bounded g) : v < Word.count := by
  obtain ⟨data, u, -, hcreate⟩ := bind_eq_ok.mp hcreate
  obtain ⟨reply, u', hperform, hreply⟩ := bind_eq_ok.mp hcreate
  cases reply with
  | index n =>
      cases hreply
      exact Nat.lt_trans (perform_createSprite hperform) ht.sprites
  | done | flag b =>
      cases hreply
      decide

theorem eq_of_pure {α β : Type} {x : Exec α} {b c : β} {s t : State}
    (h : (x >>= fun _ => pure b) s = .ok c t) : c = b := by
  obtain ⟨_, u, -, h⟩ := bind_eq_ok.mp h
  cases h
  rfl

end Exec

namespace Builtin

theorem body_lt {sink : Sink} {b : Builtin} {args : List Nat} {g : Generator} {s t : State}
    {v : Nat} (hargs : ∀ a ∈ args, a < Word.count) (hs : s.Accounted g)
    (h : b.body sink args s = .ok v t) (ht : t.Bounded g) : v < Word.count := by
  have hzero (hv : v = 0) : v < Word.count := by
    rw [hv]
    decide
  unfold body at h
  split at h
  case h_1 => exact hzero (Exec.eq_of_pure h)
  case h_2 => exact hzero (Exec.eq_of_pure h)
  case h_3 => exact hzero (Exec.eq_of_pure h)
  case h_4 c =>
    cases hc : character? c with
    | none =>
        rw [hc] at h
        cases h
    | some c' =>
        rw [hc] at h
        exact hzero (Exec.eq_of_pure h)
  case h_5 => cases h
  case h_6 => exact Exec.draw_lt hs (by decide) h ht
  case h_7 low high =>
    split at h
    next hlt =>
      have hhigh := hargs high (by simp)
      exact Nat.lt_trans (Exec.draw_lt hs hlt h ht) hhigh
    next => cases h
  case h_13 =>
    obtain ⟨reply, u, -, h⟩ := Exec.bind_eq_ok.mp h
    split at h
    · cases h
      decide
    · cases h
      decide
  case h_16 =>
    obtain ⟨reply, u, -, h⟩ := Exec.bind_eq_ok.mp h
    split at h
    · cases h
    · cases h
      decide
  case h_17 =>
    split at h
    · cases h
    · exact Exec.createSprite_lt h ht
  case h_19 =>
    cases h
    decide
  all_goals exact hzero (Exec.eq_of_pure h)

theorem invoke_lt {sink : Sink} {b : Builtin} {args : List Nat} {g : Generator} {s t : State}
    {v : Nat} (hargs : ∀ a ∈ args, a < Word.count) (hs : s.Accounted g)
    (h : b.invoke sink args s = .ok v t) (ht : t.Bounded g) : v < Word.count := by
  obtain ⟨_, u, hcount, h⟩ := Exec.bind_eq_ok.mp h
  have hu := Coupling.accrues_of_ok (Coupling.along_lift _) hcount
  exact body_lt hargs (hs.accrues hu) h ht

end Builtin

namespace Machine

variable {p : Program} {o : Options} {g : Generator} {n : Nat}

theorem enter_lt {m : Machine} {body : Exec Unit} {f : String} {entry : Nat}
    {params : List String} {preserve : Bool} {args : List Nat} {s t : State} {v : Nat}
    (h : m.enter body f entry params preserve args s = .ok v t) : v < Word.count := by
  obtain ⟨saved, s₁, w, w₁, -, -, hconclude, -⟩ := m.enter_ok h
  obtain ⟨r, u, hread, hconclude⟩ := Exec.bind_eq_ok.mp hconclude
  rw [← Exec.eq_of_pure hconclude] at hread
  exact Exec.readVar_lt hread

theorem callFunction_lt {m : Machine} {body : Exec Unit} {f : String} {args : List Nat}
    {s t : State} {v : Nat} (h : m.callFunction body f args s = .ok v t) : v < Word.count := by
  cases hl : m.program.labels.lookup f with
  | none =>
      simp only [callFunction, hl] at h
      cases h
  | some entry =>
      simp only [callFunction, hl] at h
      cases hi : (m.program.code[entry]?).map CodeLine.instr with
      | none =>
          simp only [hi] at h
          cases h
      | some i =>
          cases i with
          | funEntry g params preserve =>
              simp only [hi] at h
              split at h
              · cases h
              · exact enter_lt h
          | _ =>
              simp only [hi] at h
              cases h

theorem caller_lt {m : Machine} {f : String} {args : List Nat} {s t : State} {v : Nat}
    (hargs : ∀ a ∈ args, a < Word.count) (hs : s.Accounted g)
    (h : m.caller n f args s = .ok v t) (ht : t.Bounded g) : v < Word.count := by
  cases hb : Builtin.ofName? f with
  | some b =>
      simp only [caller, call, hb] at h
      exact b.invoke_lt hargs hs h ht
  | none =>
      simp only [caller, call, hb] at h
      exact callFunction_lt h

mutual

theorem eval_lt {e : Expr} (hmentions : p.Mentions e) (hwf : e.wellFormed) {s t : State} {v : Nat}
    (hs : s.Accounted g) (h : e.eval (caller ⟨p, o⟩ n) s = .ok v t) (ht : t.Bounded g) :
    v < Word.count := by
  match e with
  | .lit k =>
      cases h
      simpa [Expr.wellFormed] using hwf
  | .var x => exact Exec.readVar_lt h
  | .addr x => exact Exec.addressOf_lt hs h ht
  | .word a =>
      obtain ⟨i, u, -, h⟩ := Exec.bind_eq_ok.mp h
      exact Exec.readWord_lt h
  | .byte a =>
      obtain ⟨i, u, -, h⟩ := Exec.bind_eq_ok.mp h
      exact Exec.readByte_lt h
  | .bin op l r =>
      simp only [Expr.wellFormed, Bool.and_eq_true] at hwf
      obtain ⟨a, u, hl, h⟩ := Exec.bind_eq_ok.mp h
      obtain ⟨b, w, hr, h⟩ := Exec.bind_eq_ok.mp h
      have hu := (covers_accrual p o).of_eval_ok hmentions.left hl
      have hw := (covers_accrual p o).of_eval_ok hmentions.right hr
      cases happly : op.apply a b with
      | error e =>
          rw [happly] at h
          cases h
      | ok c =>
          rw [happly] at h
          cases h
          have ha := eval_lt hmentions.left hwf.1.2 hs hl (ht.earlier hw)
          have hb := eval_lt hmentions.right hwf.2 (hs.accrues hu) hr ht
          exact BinOp.apply_lt ha hb happly
  | .call f es =>
      simp only [Expr.wellFormed, Bool.and_eq_true] at hwf
      obtain ⟨vs, u, hes, h⟩ := Exec.bind_eq_ok.mp h
      have hu := (covers_accrual p o).of_evalAll_ok hmentions.args hes
      have hcall := Coupling.accrues_of_ok ((covers_accrual p o).caller n f vs) h
      have hvs := evalAll_lt hmentions.args hwf.2 hs hes (ht.earlier hcall)
      exact caller_lt hvs (hs.accrues hu) h ht

theorem evalAll_lt {es : List Expr} (hmentions : p.MentionsAll es) (hwf : Expr.wellFormedAll es)
    {s t : State} {vs : List Nat} (hs : s.Accounted g)
    (h : Expr.evalAll (caller ⟨p, o⟩ n) es s = .ok vs t) (ht : t.Bounded g) :
    ∀ v ∈ vs, v < Word.count := by
  match es with
  | [] =>
      cases h
      simp
  | e :: es =>
      simp only [Expr.wellFormedAll, Bool.and_eq_true] at hwf
      obtain ⟨v, u, he, h⟩ := Exec.bind_eq_ok.mp h
      obtain ⟨vs', w, hes, h⟩ := Exec.bind_eq_ok.mp h
      cases h
      have hu := (covers_accrual p o).of_eval_ok hmentions.head he
      have hw := (covers_accrual p o).of_evalAll_ok hmentions.tail hes
      have hv := eval_lt hmentions.head hwf.1 hs he (ht.earlier hw)
      have hvs := evalAll_lt hmentions.tail hwf.2 (hs.accrues hu) hes ht
      exact List.forall_mem_cons.mpr ⟨hv, hvs⟩

end

mutual

theorem accrues_of_evaluates {e e' : Expr} {s t : State}
    (h : e.Evaluates (caller ⟨p, o⟩ n) s e' t) (hmentions : p.Mentions e) (hwf : e.wellFormed) :
    s.Accrues t ∧ p.Mentions e' ∧ e'.wellFormed := by
  match h with
  | .self => exact ⟨.refl s, hmentions, hwf⟩
  | .word h => exact accrues_of_evaluates h hmentions.word hwf
  | .byte h => exact accrues_of_evaluates h hmentions.byte hwf
  | .left h =>
      simp only [Expr.wellFormed, Bool.and_eq_true] at hwf
      exact accrues_of_evaluates h hmentions.left hwf.1.2
  | .right hl h =>
      simp only [Expr.wellFormed, Bool.and_eq_true] at hwf
      have hu := (covers_accrual p o).of_eval_ok hmentions.left hl
      have ht := accrues_of_evaluates h hmentions.right hwf.2
      exact ⟨.trans _ _ _ hu ht.1, ht.2⟩
  | .within h =>
      simp only [Expr.wellFormed, Bool.and_eq_true] at hwf
      exact accrues_of_evaluatesAll h hmentions.args hwf.2

theorem accrues_of_evaluatesAll {es : List Expr} {e' : Expr} {s t : State}
    (h : Expr.EvaluatesAll (caller ⟨p, o⟩ n) es s e' t) (hmentions : p.MentionsAll es)
    (hwf : Expr.wellFormedAll es) : s.Accrues t ∧ p.Mentions e' ∧ e'.wellFormed := by
  match h with
  | .head h =>
      simp only [Expr.wellFormedAll, Bool.and_eq_true] at hwf
      exact accrues_of_evaluates h hmentions.head hwf.1
  | .tail he h =>
      simp only [Expr.wellFormedAll, Bool.and_eq_true] at hwf
      have hu := (covers_accrual p o).of_eval_ok hmentions.head he
      have ht := accrues_of_evaluatesAll h hmentions.tail hwf.2
      exact ⟨.trans _ _ _ hu ht.1, ht.2⟩

end

end Machine

namespace Expr

mutual

theorem Calls.evaluates {call : Caller} {e : Expr} {s t : State} {f : String} {args : List Nat}
    (h : e.Calls call s f args t) :
    ∃ es u, e.Evaluates call s (.call f es) u ∧ evalAll call es u = .ok args t := by
  match h with
  | .word h =>
      obtain ⟨es, u, he, hes⟩ := h.evaluates
      exact ⟨es, u, .word he, hes⟩
  | .byte h =>
      obtain ⟨es, u, he, hes⟩ := h.evaluates
      exact ⟨es, u, .byte he, hes⟩
  | .left h =>
      obtain ⟨es, u, he, hes⟩ := h.evaluates
      exact ⟨es, u, .left he, hes⟩
  | .right hl h =>
      obtain ⟨es, u, he, hes⟩ := h.evaluates
      exact ⟨es, u, .right hl he, hes⟩
  | .within h =>
      obtain ⟨es, u, he, hes⟩ := h.evaluates
      exact ⟨es, u, .within he, hes⟩
  | .here hes => exact ⟨_, s, .self, hes⟩

theorem CallsAll.evaluates {call : Caller} {es : List Expr} {s t : State} {f : String}
    {args : List Nat} (h : CallsAll call es s f args t) :
    ∃ as u, EvaluatesAll call es s (.call f as) u ∧ evalAll call as u = .ok args t := by
  match h with
  | .head h =>
      obtain ⟨as, u, he, has⟩ := h.evaluates
      exact ⟨as, u, .head he, has⟩
  | .tail hv h =>
      obtain ⟨as, u, he, has⟩ := h.evaluates
      exact ⟨as, u, .tail hv he, has⟩

end

end Expr

/-! ## What is stored -/

/--
In the course of giving variables values from `s` on, the value `v` is stored
at the address `a` in `w`.
-/
inductive Exec.Puts : List String → List Nat → State → Nat → Nat → State → Prop
  | here {x xs vs s a w} : addressOf x s = .ok a w → Puts (x :: xs) vs s a (vs.headD 0) w
  | later {x xs vs s t a v w} : writeVar x (vs.headD 0) s = .ok () t →
      Puts xs vs.tail t a v w → Puts (x :: xs) vs s a v w

namespace Machine

/--
The instruction of `line`, which begins in `s`, stores the value `v` at the
address `a` in `w`: it assigns it, or it makes a call for which it becomes the
value of a parameter, or to which a parameter is restored.
-/
inductive Stores (m : Machine) (n : Nat) (line : CodeLine) (s : State) : Nat → Nat → State → Prop
  | var {x e v t a w} : line.instr = .assign (.var x) e → e.eval (m.caller n) s = .ok v t →
      Exec.addressOf x t = .ok a w → Stores m n line s a v w
  | word {b e v t a w} : line.instr = .assign (.word b) e → e.eval (m.caller n) s = .ok v t →
      b.eval (m.caller n) t = .ok a w → Stores m n line s a v w
  | byte {b e v t a w} : line.instr = .assign (.byte b) e → e.eval (m.caller n) s = .ok v t →
      b.eval (m.caller n) t = .ok a w → Stores m n line s a v w
  | parameter {f args t entry params preserve saved u a v w} :
      Expr.CallsAll (m.caller n) line.instr.operands s f args t →
      m.Resolves f args entry params preserve →
      Exec.readVars (preserved params preserve) t = .ok saved u →
      Exec.Puts params args u a v w → Stores m n line s a v w
  | restored {f args t entry params preserve saved u r x r' a v w} :
      Expr.CallsAll (m.caller n) line.instr.operands s f args t →
      m.Resolves f args entry params preserve →
      prepare params preserve args t = .ok saved u →
      m.loop .body n (u.entered f (m.locAt t.ip) entry) = .ok () r →
      Exec.readVar returnVariable r = .ok x r' →
      Exec.Puts (preserved params preserve) saved r' a v w → Stores m n line s a v w

end Machine

namespace Exec

theorem readVars_lt {xs : List String} {s t : State} {vs : List Nat}
    (h : readVars xs s = .ok vs t) : ∀ v ∈ vs, v < Word.count := by
  induction xs generalizing s vs with
  | nil =>
      cases h
      simp
  | cons x xs ih =>
      obtain ⟨v, u, hx, h⟩ := bind_eq_ok.mp h
      obtain ⟨vs', w, hxs, h⟩ := bind_eq_ok.mp h
      cases h
      exact List.forall_mem_cons.mpr ⟨readVar_lt hx, ih hxs⟩

theorem Puts.lt {xs : List String} {vs : List Nat} {g : Generator} {s w : State} {a v : Nat}
    (h : Puts xs vs s a v w) (hvs : ∀ v ∈ vs, v < Word.count) (hs : s.Accounted g)
    (hw : w.Bounded g) : a < Word.count ∧ v < Word.count := by
  induction h with
  | @here x xs vs s a w haddress =>
      refine ⟨addressOf_lt hs haddress hw, ?_⟩
      cases vs with
      | nil => decide
      | cons v vs => exact hvs v (by simp)
  | later hwrite _ ih =>
      have ht := Coupling.accrues_of_ok (Machine.accrual_writeVar _ _) hwrite
      exact ih (fun v hv => hvs v (List.mem_of_mem_tail hv)) (hs.accrues ht) hw

theorem Puts.accrues {xs : List String} {vs : List Nat} {s w : State} {a v : Nat}
    (h : Puts xs vs s a v w) : s.Accrues w := by
  induction h with
  | here haddress => exact Coupling.accrues_of_ok (Machine.accrual_addressOf _) haddress
  | later hwrite _ ih =>
      exact .trans _ _ _ (Coupling.accrues_of_ok (Machine.accrual_writeVar _ _) hwrite) ih

end Exec

/-! ## Programs -/

def Program.WellFormed (p : Program) : Prop :=
  ∀ (i : Nat) (line : CodeLine), p.code[i]? = some line →
    Expr.wellFormedAll line.instr.operands

theorem Program.wellFormed_of_ofSource {s : Source} {p : Program} (hs : s.WellFormed)
    (h : ofSource s = .ok p) : p.WellFormed := by
  obtain ⟨-, -, -, hcode, -, -⟩ := ofSource_ok h
  intro i line hline
  rw [hcode, List.getElem?_toArray] at hline
  exact (Stmt.wellFormed_lowerAll 0 hs.code line (List.mem_of_getElem? hline)).operands

theorem DataSegment.lookup_ofItemsAfter_le {items : List DataItem} {size : Nat} {seen : Table}
    {d : DataSegment} (h : ofItemsAfter size seen items = .ok d) {x : String} {a : Nat}
    (ha : d.labels.lookup x = some a) : a ≤ size + d.bytes.length := by
  induction items generalizing size seen d with
  | nil =>
      cases h
      cases ha
  | cons item rest ih =>
      cases item with
      | bytes bs =>
          obtain ⟨d', hrest, rfl⟩ := ofItemsAfter_bytes h
          have hle := ih hrest ha
          rw [List.length_append]
          omega
      | label y =>
          obtain ⟨-, d', hrest, rfl⟩ := ofItemsAfter_label h
          rw [List.lookup_cons] at ha
          cases hxy : x == y with
          | true =>
              rw [hxy] at ha
              cases ha
              exact Nat.le_add_right _ _
          | false =>
              rw [hxy] at ha
              have hle := ih hrest ha
              exact hle

theorem Machine.accounted_start {s : Source} {p : Program} (h : Program.ofSource s = .ok p)
    (o : Options) (canvas : Canvas) (g : Generator) :
    (Machine.start ⟨p, o⟩ canvas g).Accounted g where
  addressed x a ha := by
    obtain ⟨d, hd, -, -, hdata, hlabels⟩ := Program.ofSource_ok h
    have ha' : d.labels.lookup x = some a := by rwa [← hlabels]
    have hle := DataSegment.lookup_ofItemsAfter_le hd ha'
    simpa [start, Memory.ofList, Memory.size, hdata] using hle
  draws := ⟨[], rfl⟩

/-! ## Instructions -/

namespace Machine

section

variable {p : Program} {o : Options} {g : Generator} {n i : Nat} {line : CodeLine} {s : State}
  (hp : p.WellFormed) (hline : p.code[i]? = some line) (hs : s.Accounted g)

include hp hline hs

theorem lt_of_evaluatesAll {e : Expr} {t u : State} {v : Nat}
    (he : Expr.EvaluatesAll (caller ⟨p, o⟩ n) line.instr.operands s e t)
    (hv : e.eval (caller ⟨p, o⟩ n) t = .ok v u) (hu : u.Bounded g) : v < Word.count := by
  obtain ⟨ht, hmentions, hwf⟩ :=
    accrues_of_evaluatesAll he (Program.mentions_operands hline) (hp i line hline)
  exact eval_lt hmentions hwf (hs.accrues ht) hv hu

theorem lt_of_callsAll {f : String} {args : List Nat} {t : State}
    (h : Expr.CallsAll (caller ⟨p, o⟩ n) line.instr.operands s f args t) (ht : t.Bounded g) :
    ∀ v ∈ args, v < Word.count := by
  obtain ⟨es, u, he, hes⟩ := h.evaluates
  obtain ⟨hu, hmentions, hwf⟩ :=
    accrues_of_evaluatesAll he (Program.mentions_operands hline) (hp i line hline)
  simp only [Expr.wellFormed, Bool.and_eq_true] at hwf
  exact evalAll_lt hmentions.args hwf.2 (hs.accrues hu) hes ht

theorem Stores.lt {a v : Nat} {w : State} (h : Stores ⟨p, o⟩ n line s a v w) (hw : w.Bounded g) :
    a < Word.count ∧ v < Word.count := by
  have hcovers := covers_accrual p o
  have hmentions := Program.mentions_operands hline
  cases h with
  | var hi he haddress =>
      rw [hi] at hmentions
      have hv := lt_of_evaluatesAll hp hline hs (by rw [hi]; exact .head .self) he
      have ht := hs.accrues (hcovers.of_eval_ok hmentions.head he)
      have hw' := hw.earlier (Coupling.accrues_of_ok (accrual_addressOf _) haddress)
      exact ⟨Exec.addressOf_lt ht haddress hw, hv hw'⟩
  | word hi he hb | byte hi he hb =>
      rw [hi] at hmentions
      have hv := lt_of_evaluatesAll hp hline hs (by rw [hi]; exact .head .self) he
      have ha := lt_of_evaluatesAll hp hline hs (by rw [hi]; exact .tail he (.head .self)) hb
      exact ⟨ha hw, hv (hw.earlier (hcovers.of_eval_ok hmentions.tail.head hb))⟩
  | parameter hcalls hresolves hread hputs =>
      have ht := hcovers.of_callsAll hmentions hcalls
      have hu := Coupling.accrues_of_ok (accrual_readVars _) hread
      have hargs := lt_of_callsAll hp hline hs hcalls
        (hw.earlier (.trans _ _ _ hu hputs.accrues))
      exact hputs.lt hargs ((hs.accrues ht).accrues hu) hw
  | @restored f args t entry params preserve saved u r x r' _ _ _ hcalls hresolves hprep hbody
      hread hputs =>
      have ht := hcovers.of_callsAll hmentions hcalls
      have hu := Coupling.accrues_of_ok (accrual_prepare _ _ _) hprep
      have hentered := hcovers.of_entered u f (locAt ⟨p, o⟩ t.ip) entry
      have hr := hcovers.loop .body n (u.entered f (locAt ⟨p, o⟩ t.ip) entry)
      rw [hbody] at hr
      have hr' := Coupling.accrues_of_ok (accrual_readVar _) hread
      obtain ⟨vs, u', hsaved, hprep⟩ := Exec.bind_eq_ok.mp hprep
      obtain ⟨_, u'', -, hprep⟩ := Exec.bind_eq_ok.mp hprep
      cases hprep
      exact hputs.lt (Exec.readVars_lt hsaved)
        (((((hs.accrues ht).accrues hu).accrues hentered).accrues hr).accrues hr') hw

end

/-! ## Runs -/

/--
In a run of a program that was read from a text, whatever is evaluated, passed
to a function, used as an address or stored is a word, up to any state in which
memory and sprites can be counted by words and all random numbers were in the
range asked for.  So a stored word is not changed by being cut to 32 bits.  The
operators are the operations of a 32-bit machine, but that nothing can be
divided by zero.
-/
theorem values_are_words {file text : String} {src : Source} {p : Program}
    (hparse : Source.parse file text = .ok src) (hload : Program.ofSource src = .ok p)
    (o : Options) (canvas : Canvas) (g : Generator) :
    let m : Machine := ⟨p, o⟩
    let s₀ := m.start canvas g
    (∀ k s line n, m.Visits .top s₀.begun k s → m.Going k s line →
      (∀ e t v u,
        Expr.EvaluatesAll (m.caller n) line.instr.operands (s.recorded o.verbose line) e t →
        e.eval (m.caller n) t = .ok v u → u.Bounded g → v < Word.count) ∧
      (∀ f args t,
        Expr.CallsAll (m.caller n) line.instr.operands (s.recorded o.verbose line) f args t →
        t.Bounded g → ∀ v ∈ args, v < Word.count) ∧
      ∀ a v w, m.Stores n line (s.recorded o.verbose line) a v w → w.Bounded g →
        a < Word.count ∧ v < Word.count ∧ Word.ofInt v = v) ∧
    (∀ s x a t, m.Leads s₀ s → Exec.addressOf x s = .ok a t → t.Bounded g → a < Word.count) ∧
    (∀ (op : Operator) (a b : UInt32), (BinOp.known op).apply a.toNat b.toNat =
      if op.Divides ∧ b = 0 then .error .divisionByZero else .ok (op.onWords a b).toNat) := by
  intro m s₀
  have hp : p.WellFormed := Program.wellFormed_of_ofSource (Source.wellFormed_of_parse hparse) hload
  have hcovers := covers_accrual p o
  have hstart : s₀.Accounted g := accounted_start hload o canvas g
  refine ⟨fun k s line n hvisit hgo => ?_, fun s x a t hleads haddress ht => ?_,
    BinOp.apply_toNat⟩
  · have hs : (s.recorded o.verbose line).Accounted g :=
      ((hstart.accrues (hcovers.of_entered _ _ _ _)).accrues (hcovers.of_visits hvisit)).accrues
        (hcovers.of_recorded s line)
    refine ⟨fun e t v u he hv => lt_of_evaluatesAll hp hgo.1 hs he hv,
      fun f args t h => lt_of_callsAll hp hgo.1 hs h, fun a v w h hw => ?_⟩
    obtain ⟨ha, hv⟩ := h.lt hp hgo.1 hs hw
    exact ⟨ha, hv, Word.ofInt_natCast hv⟩
  · have hs : s₀.Accrues s := hcovers.of_leads (fun _ _ => .of_eq rfl rfl rfl rfl) hleads
    exact Exec.addressOf_lt (hstart.accrues hs) haddress ht

def lottery : Source where
  data := []
  code := [.assign (.var "x") (.bin (.known .sub) (.call "random_range" [.lit 2, .lit 9]) (.lit 7))
    (some ⟨"lottery", 1, 1, "random_range(2, 9) - 7 -> x"⟩)]

def lottery.program : Program where
  code := (Code.ofBlock lottery.code).toArray
  data := []
  labels := []
  dataLabels := []

theorem lottery_stores_word :
    Source.parse "lottery" "random_range(2, 9) - 7 -> x" = .ok lottery ∧
      Program.ofSource lottery = .ok lottery.program ∧
      let m : Machine := ⟨lottery.program, {}⟩
      let g : Generator := .scripted [3] []
      let s := (m.start (.ofScreen (.standard .off)) g).begun
      ∃ line w, m.Going .top s line ∧ m.Stores 0 line (s.recorded false line) 0 4294967292 w ∧
        w.Bounded g ∧ Word.ofInt 4294967292 = 4294967292 := by
  have hparse : Source.parse "lottery" "random_range(2, 9) - 7 -> x" = .ok lottery := by cbv
  have hload : Program.ofSource lottery = .ok lottery.program := by rfl
  refine ⟨hparse, hload, ?_⟩
  intro m g s
  let line := lottery.program.code[0]
  let w : State := { s.recorded false line with
    memory := ⟨#[0, 0, 0, 0]⟩
    vars := [("x", 0)]
    generator := .scripted [] [(2, 9)] }
  have hgo : m.Going .top s line := ⟨rfl, trivial⟩
  have hstore : m.Stores 0 line (s.recorded false line) 0 4294967292 w :=
    .var rfl (by rfl) (by rfl)
  have hhonest : g.Honest w.generator := by
    refine (@Generator.honest_scripted_iff [3] [] [(2, 9)]).mpr ?_
    simp [Generator.InRange, Generator.draw]
  have hbounded : w.Bounded g := ⟨by decide, by decide, hhonest⟩
  obtain ⟨hvalues, -, -⟩ :=
    values_are_words hparse hload {} (.ofScreen (.standard .off)) g
  obtain ⟨-, -, hstores⟩ := hvalues .top s line 0 .here hgo
  exact ⟨line, w, hgo, hstore, hbounded, (hstores 0 4294967292 w hstore hbounded).2.2⟩

end Machine

end BrownLang
