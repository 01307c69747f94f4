import BrownLang.Proofs.Execution.Loop
import BrownLang.Proofs.Structured.Embedding
import BrownLang.Proofs.Structured.Matching

/-!
# Code does what statements do

Seen from an instruction, what a loop of the machine does next is what some
action does; statements are related to their code from the end of a program
backwards, each in front of whatever comes after it.  One induction relates
both ways: it counts the steps that the machine needs at most, and sees to it
that a bound on its steps is a bound on the iterations of loops too.
-/

namespace BrownLang

open Exec

/-! ## How many steps a statement takes -/

namespace Stmt

mutual

/-- The number of instructions that a statement takes at most, if loops are bounded by `n`. -/
def cost (n : Nat) : Stmt → Nat
  | assign .. | eval .. | goto .. | label .. => 1
  | ifThen _ yes _ => costAll n yes + 2
  | ifElse _ yes no _ => costAll n yes + costAll n no + 2
  | whileLoop _ body _ => (n + 1) * (costAll n body + 2)
  | forLoop _ _ _ body _ => (n + 1) * (costAll n body + 3)
  | function _ _ _ body _ => costAll n body + 2

def costAll (n : Nat) : List Stmt → Nat
  | [] => 0
  | s :: rest => cost n s + costAll n rest

end

end Stmt

/-! ## The parts of a counting loop -/

theorem Exec.writeWord_ofInt (a : Nat) (v : Int) :
    writeWord a (Word.ofInt v : Nat) = writeWord a v := by
  have hword : Word.ofInt (Word.ofInt v : Nat) = Word.ofInt v :=
    Word.ofInt_natCast (Word.ofInt_lt v)
  unfold writeWord
  rw [hword]

namespace Stmt

theorem eval_succ (call : Caller) (x : String) :
    Expr.eval call (.bin (.known .add) (.var x) (.lit 1)) =
      (do
        let i ← readVar x
        pure (Word.ofInt (i + 1)) : Exec Nat) := by
  rw [Expr.eval, Expr.eval]
  rfl

theorem countUp_eq (call : Caller) (x : String) :
    countUp x = (do
      let v ← Expr.eval call (.bin (.known .add) (.var x) (.lit 1))
      writeVar x v) := by
  rw [eval_succ, bind_assoc]
  unfold countUp
  refine bind_congr fun i => ?_
  rw [pure_bind]
  unfold writeVar
  refine bind_congr fun a => ?_
  exact (writeWord_ofInt a _).symm

theorem countsOn_eq (call : Caller) (x : String) (bound : Expr) :
    countsOn call x bound = test call (.bin (.known .lt) (.var x) bound) := by
  unfold countsOn test
  rw [Expr.eval, Expr.eval, bind_assoc]
  refine bind_congr fun i => ?_
  rw [bind_assoc]
  refine bind_congr fun last => ?_
  change (pure (decide (i < last)) : Exec Bool) = pure (decide ((if i < last then 1 else 0) ≠ 0))
  by_cases h : i < last
  · simp [h]
  · simp [h]

end Stmt

namespace Loop

theorem passes {k : Loop} {i : Instr} (h : i ≠ .funReturn) : k.Passes i := by
  cases k with
  | top => trivial
  | body => exact h

end Loop

namespace Machine

/--
From `ip` on, the loop `k` does what `rest` does.  It may take up to `top`
steps, and it needs `bottom` so as not to be cut short.
-/
def Follows (m : Machine) (p q : Prop) (k : Loop) (ip bottom top : Nat) (rest : Exec Unit) : Prop :=
  ∀ M ≤ top, (p ∨ bottom ≤ M) → ∀ s t : State, s.store = t.store → t.ip = ip →
    Matches p q (rest s) (m.loop k M t)

variable {m : Machine} {p q : Prop} {k : Loop} {ip bottom top : Nat} {rest : Exec Unit}

theorem Follows.mono {bottom' top' : Nat} (h : m.Follows p q k ip bottom top rest)
    (hbottom : bottom ≤ bottom') (htop : top' ≤ top) : m.Follows p q k ip bottom' top' rest :=
  fun M hM hp => h M (by omega) (hp.imp id fun hle => by omega)

theorem Follows.of_succ (h : m.Follows p q k ip bottom (top + 1) rest) :
    m.Follows p q k ip bottom top rest :=
  h.mono (Nat.le_refl _) (Nat.le_succ _)

theorem Follows.step {line : CodeLine} (hline : m.program.code[ip]? = some line)
    (hpass : k.Passes line.instr)
    (h : ∀ M ≤ top, (p ∨ bottom ≤ M) → ∀ s t : State, s.store = t.store → t.ip = ip →
      Matches p q (rest s)
        ((do
          m.execute (m.caller M) line.instr
          modify fun u => { u with ip := u.ip + 1 }
          m.loop k M : Exec Unit) t)) :
    m.Follows p q k ip (bottom + 1) (top + 1) rest := by
  intro M hM hp s t hstore hip
  cases M with
  | zero =>
      rw [loop_zero]
      rcases hp with hp | hp
      · exact .right hp
      · omega
  | succ M =>
      have hgo : m.Going k t line := ⟨by rw [hip, hline], hpass⟩
      have hstep : m.loop k (M + 1) t =
          (do
            m.execute (m.caller M) line.instr
            modify fun u => { u with ip := u.ip + 1 }
            m.loop k M : Exec Unit) (t.recorded m.options.verbose line) := by
        rw [m.loop_succ_of_going hgo, bind_apply, m.step_eq hgo.1, ← bind_apply, bind_assoc]
      rw [hstep]
      exact h M (by omega) (hp.imp id fun hle => by omega) s _ hstore hip

theorem execute_stays {i : Instr} {M : Nat} {t t' : State}
    (hnext : ∀ vs j, m.nextIp? i vs j = some (j + 1))
    (h : m.execute (m.caller M) i t = .ok () t') : t'.ip = t.ip := by
  rw [execute_eq_effect] at h
  obtain ⟨vs, u, hvs, heff⟩ := Exec.bind_eq_ok.mp h
  have hu := Expr.evalAll_evolves State.evolution_returns (m.caller_returns M) hvs
  obtain ⟨-, hip⟩ := m.effect_ok heff
  rw [hnext] at hip
  have hsucc := Option.some.inj hip
  have hsame := hu.ip_eq
  omega

theorem Follows.plain {line : CodeLine} {x : Exec Unit} (hline : m.program.code[ip]? = some line)
    (hpass : k.Passes line.instr)
    (hx : ∀ M ≤ top, (p ∨ bottom ≤ M) → Tracks p q x (m.execute (m.caller M) line.instr))
    (hnext : ∀ vs i, m.nextIp? line.instr vs i = some (i + 1))
    (h : m.Follows p q k (ip + 1) bottom top rest) :
    m.Follows p q k ip (bottom + 1) (top + 1) (do x; rest) := by
  refine .step hline hpass fun M hM hp s t hstore hip => ?_
  refine (hx M hM hp s t hstore).bind fun _ s' t' ht' hstore' => ?_
  refine h M hM hp s' _ hstore' ?_
  change t'.ip + 1 = ip + 1
  rw [execute_stays hnext ht']
  exact congrArg (· + 1) hip

theorem Follows.skip {line : CodeLine} (hline : m.program.code[ip]? = some line)
    (hpass : k.Passes line.instr) (hskip : ∀ call, m.execute call line.instr = pure ())
    (h : m.Follows p q k (ip + 1) bottom top rest) :
    m.Follows p q k ip (bottom + 1) (top + 1) rest := by
  refine .step hline hpass fun M hM hp s t hstore hip => ?_
  rw [hskip, pure_bind]
  exact h M hM hp s _ hstore (congrArg (· + 1) hip)

theorem jump_of_lookup {l : String} {i : Nat} (hl : m.program.labels.lookup l = some i) :
    m.jump l = jumpTo i := by
  unfold jump
  rw [hl]

theorem Follows.goto {line : CodeLine} {l : String} {i : Nat}
    (hline : m.program.code[ip]? = some line) (hinstr : line.instr = .goto l)
    (hpass : k.Passes line.instr) (hl : m.program.labels.lookup l = some i)
    (h : m.Follows p q k (i + 1) bottom top rest) :
    m.Follows p q k ip (bottom + 1) (top + 1) rest := by
  refine .step hline hpass fun M hM hp s t hstore _ => ?_
  rw [hinstr, execute, jump_of_lookup hl]
  exact h M hM hp s _ hstore rfl

/-! ## Statements that evaluate something -/

section

variable {call : Caller}
  (hcall : ∀ M ≤ top, (p ∨ bottom ≤ M) → ∀ f args, Tracks p q (call f args) (m.caller M f args))

include hcall

theorem Follows.assign {line : CodeLine} {target : Target} {e : Expr}
    (hline : m.program.code[ip]? = some line) (hinstr : line.instr = .assign target e)
    (h : m.Follows p q k (ip + 1) bottom top rest) :
    m.Follows p q k ip (bottom + 1) (top + 1)
      (do
        let v ← e.eval call
        target.store call v
        rest) := by
  have hpass : k.Passes line.instr := Loop.passes (by simp [hinstr])
  have hnext (vs : List Nat) (i : Nat) : m.nextIp? line.instr vs i = some (i + 1) := by
    rw [hinstr]
    rfl
  have hplain := Follows.plain hline hpass (x := do
    let v ← e.eval call
    target.store call v) (fun M hM hp => by
      rw [hinstr]
      exact (tracks_eval (hcall M hM hp) e).bind fun v => tracks_store (hcall M hM hp) v target)
    hnext h
  simpa only [bind_assoc] using hplain

theorem Follows.eval {line : CodeLine} {e : Expr}
    (hline : m.program.code[ip]? = some line) (hinstr : line.instr = .eval e)
    (h : m.Follows p q k (ip + 1) bottom top rest) :
    m.Follows p q k ip (bottom + 1) (top + 1)
      (do
        let _ ← e.eval call
        rest) := by
  have hpass : k.Passes line.instr := Loop.passes (by simp [hinstr])
  have hnext (vs : List Nat) (i : Nat) : m.nextIp? line.instr vs i = some (i + 1) := by
    rw [hinstr]
    rfl
  have hplain := Follows.plain hline hpass (x := do
    let _ ← e.eval call
    pure ()) (fun M hM hp => by
      rw [hinstr]
      exact (tracks_eval (hcall M hM hp) e).bind fun v => .of_local (.pure ()))
    hnext h
  simpa only [bind_assoc, pure_bind] using hplain

theorem Follows.branch {line : CodeLine} {c : Expr} {l : String} {i : Nat} {yes no : Exec Unit}
    (hline : m.program.code[ip]? = some line) (hinstr : line.instr = .jumpFalse c l)
    (hl : m.program.labels.lookup l = some i)
    (hyes : m.Follows p q k (ip + 1) bottom top yes)
    (hno : m.Follows p q k (i + 1) bottom top no) :
    m.Follows p q k ip (bottom + 1) (top + 1)
      (do if ← Stmt.test call c then yes else no) := by
  have hpass : k.Passes line.instr := Loop.passes (by simp [hinstr])
  refine .step hline hpass fun M hM hp s t hstore hip => ?_
  rw [hinstr, execute, jump_of_lookup hl, Stmt.test]
  simp only [bind_assoc, pure_bind]
  refine (tracks_eval (hcall M hM hp) c s t hstore).bind fun v s' t' ht' hstore' => ?_
  have hip' : t'.ip = ip := (m.eval_returns ht').ip_eq.trans hip
  by_cases hv : v = 0
  · rw [if_neg (by simpa using hv), if_pos hv]
    exact hno M hM hp s' _ hstore' rfl
  · rw [if_pos (by simpa using hv), if_neg hv]
    exact hyes M hM hp s' _ hstore' (congrArg (· + 1) hip')

end

/-! ## All statements -/

theorem ite_bind {α β : Type} (x : Exec Bool) (yes no : Exec α) (f : α → Exec β) :
    (do if ← x then yes else no) >>= f = (do if ← x then yes >>= f else no >>= f) := by
  rw [bind_assoc]
  refine bind_congr fun b => ?_
  cases b <;> rfl

def CallsTrack (m : Machine) (p q : Prop) (call : Caller) (K n : Nat) : Prop :=
  ∀ M, (p ∨ K ≤ M) → (q ∨ M ≤ n) → ∀ f args, Tracks p q (call f args) (m.caller M f args)

variable {call : Caller} {K n : Nat}

theorem CallsTrack.within (hcall : m.CallsTrack p q call K n) (hK : K ≤ bottom)
    (hn : q ∨ top ≤ n) :
    ∀ M ≤ top, (p ∨ bottom ≤ M) →
      ∀ f args, Tracks p q (call f args) (m.caller M f args) := by
  intro M hM hp
  exact hcall M (hp.imp id fun h => by omega) (hn.imp id fun h => by omega)

/--
A loop whose head is a conditional jump out of it, if the body, `w` steps at
most, leads back to the head.
-/
theorem follows_repeat (j w : Nat) (body : Exec Unit) (hcall : m.CallsTrack p q call K n)
    {line : CodeLine} {c : Expr} {l : String} {i : Nat}
    (hline : m.program.code[ip]? = some line) (hinstr : line.instr = .jumpFalse c l)
    (hl : m.program.labels.lookup l = some i) (hK : K ≤ bottom) (hn : q ∨ top ≤ n)
    (hj : q ∨ top ≤ j)
    (hbody : ∀ {bottom' top' : Nat} {rest' : Exec Unit}, K ≤ bottom' → (q ∨ top' ≤ n) →
      m.Follows p q k ip bottom' top' rest' →
      m.Follows p q k (ip + 1) (bottom' + w) top' (do body; rest'))
    (h : m.Follows p q k (i + 1) bottom top rest) :
    m.Follows p q k ip (bottom + j * (w + 1) + 1) top
      (do repeatWhile (Stmt.test call c) body j; rest) := by
  induction j generalizing top with
  | zero =>
      intro M hM _ s t _ _
      rcases hj with hq | hj
      · exact .left hq
      · obtain rfl : M = 0 := by omega
        rw [loop_zero]
        exact .both
  | succ j ih =>
      have hn' : q ∨ top - 1 ≤ n := hn.imp id fun hle => by omega
      have hagain := ih hn' (hj.imp id fun hle => by omega) (h.mono (Nat.le_refl _) (by omega))
      have hyes := hbody (by omega) hn' hagain
      have hno : m.Follows p q k (i + 1) (bottom + j * (w + 1) + 1 + w) (top - 1) rest :=
        h.mono (by omega) (by omega)
      have hhead := Follows.branch (hcall.within (by omega) hn') hline hinstr hl hyes hno
      rw [repeatWhile, ite_bind, pure_bind]
      simp only [bind_assoc]
      refine hhead.mono ?_ (by omega)
      rw [Nat.succ_mul]
      omega

mutual

theorem follows_exec (hloaded : m.program.Loaded) (hcall : m.CallsTrack p q call K n) {s : Stmt}
    {a ip bottom top : Nat} {inFunction : Bool} {rest : Exec Unit}
    (hk : k = .body → inFunction) (hs : s.structured inFunction) (hcode : m.CodeAt ip (s.lower a))
    (hK : K ≤ bottom) (hn : q ∨ top ≤ n)
    (h : m.Follows p q k (ip + (s.lower a).length) bottom top rest) :
    m.Follows p q k ip (bottom + s.cost n) top (do s.exec call n; rest) := by
  -- Each case follows the code from its end to its beginning, as `h` is about what comes after.
  match s with
  | .goto .. | .label .. => exact nomatch hs
  | .assign target e l =>
      have hassign := Follows.assign (hcall.within hK hn) hcode.head rfl h
      simp only [Stmt.exec, bind_assoc]
      exact hassign.of_succ
  | .eval e l =>
      have heval := Follows.eval (hcall.within hK hn) hcode.head rfl h
      simp only [Stmt.exec, bind_assoc, pure_bind]
      exact heval.of_succ
  | .function f ps keep body l =>
      obtain ⟨hout, hbody⟩ := Bool.and_eq_true_iff.mp hs
      have hpass : k.Passes .funReturn := by
        cases k with
        | top => trivial
        | body => simp [hk rfl] at hout
      have hstop : ip + (Stmt.lower a (.function f ps keep body l)).length =
          ip + 1 + (Stmt.lowerAll a body).length + 1 := by
        simp only [Stmt.lower, List.length_append, List.length_cons, List.length_nil]
        omega
      rw [hstop] at h
      have hreturn := (Follows.skip hcode.tail.append_right.head hpass (fun _ => rfl) h).of_succ
      have hall := follows_execAll hloaded hcall (fun _ => rfl) hbody hcode.tail.append_left
        (by omega) hn hreturn
      have hentry := Follows.skip hcode.head (Loop.passes (by simp)) (fun _ => rfl) hall
      rw [Stmt.exec]
      exact hentry.mono (by simp only [Stmt.cost]; omega) (Nat.le_succ _)
  | .ifThen c yes l =>
      have hstop : ip + (Stmt.lower a (.ifThen c yes l)).length =
          ip + 1 + (Stmt.lowerAll (a + 1) yes).length + 1 := by
        simp only [Stmt.lower, List.length_append, List.length_cons, List.length_nil]
        omega
      rw [hstop] at h
      have hlabel := hcode.tail.append_right
      have hexit := (Follows.skip hlabel.head (Loop.passes (by simp)) (fun _ => rfl) h).of_succ
      have hyes := follows_execAll hloaded hcall hk hs hcode.tail.append_left (by omega) hn hexit
      have hhead := Follows.branch (hcall.within (by omega) hn) hcode.head rfl
        (hlabel.lookup_label hloaded rfl) hyes (h.mono (by omega) (Nat.le_refl _))
      rw [Stmt.exec, ite_bind, pure_bind]
      exact hhead.mono (by simp only [Stmt.cost]; omega) (Nat.le_succ _)
  | .ifElse c yes no l =>
      obtain ⟨hsyes, hsno⟩ := Bool.and_eq_true_iff.mp hs
      rw [Stmt.lower, List.append_assoc] at hcode
      have hmiddle := hcode.tail.append_right
      have hlast := hmiddle.tail.tail.append_right
      have hstop : ip + (Stmt.lower a (.ifElse c yes no l)).length =
          ip + 1 + (Stmt.lowerAll (a + 1) yes).length + 1 + 1 +
            (Stmt.lowerAll (a + 1 + Stmt.labelCountAll yes + 1) no).length + 1 := by
        simp only [Stmt.lower, List.length_append, List.length_cons, List.length_nil]
        omega
      rw [hstop] at h
      have hexit := (Follows.skip hlast.head (Loop.passes (by simp)) (fun _ => rfl) h).of_succ
      have hno := follows_execAll hloaded hcall hk hsno hmiddle.tail.tail.append_left
        (by omega) hn hexit
      have hgoto := (Follows.goto hmiddle.head rfl (Loop.passes (by simp))
        (hlast.lookup_label hloaded rfl) h).of_succ
      have hyes := follows_execAll hloaded hcall hk hsyes hcode.tail.append_left (by omega) hn hgoto
      have hcost : bottom + 1 + Stmt.costAll n no ≤
          bottom + 1 + Stmt.costAll n yes + Stmt.costAll n no := by
        omega
      have hhead := Follows.branch (hcall.within (by omega) hn) hcode.head rfl
        (hmiddle.tail.lookup_label hloaded rfl) (hyes.mono (by omega) (Nat.le_refl _))
        (hno.mono hcost (Nat.le_refl _))
      rw [Stmt.exec, ite_bind]
      exact hhead.mono (by simp only [Stmt.cost]; omega) (Nat.le_succ _)
  | .whileLoop c body l =>
      have hhead := hcode.tail
      have hback := hhead.tail.append_right
      have hstop : ip + (Stmt.lower a (.whileLoop c body l)).length =
          ip + 1 + 1 + (Stmt.lowerAll (a + 2) body).length + 1 + 1 := by
        simp only [Stmt.lower, List.length_append, List.length_cons, List.length_nil]
        omega
      rw [hstop] at h
      have hloop := follows_repeat n (Stmt.costAll n body + 1) (Stmt.execAll call n body)
        hcall hhead.head rfl
        (hback.tail.lookup_label hloaded rfl) hK hn hn (fun hK' hn' h' => by
          have hgoto := (Follows.goto hback.head rfl (Loop.passes (by simp))
            (hcode.lookup_label hloaded rfl) h').of_succ
          have hbody := follows_execAll hloaded hcall hk hs hhead.tail.append_left
            (by omega) hn' hgoto
          exact hbody.mono (by omega) (Nat.le_refl _)) h
      have hlabel := Follows.skip hcode.head (Loop.passes (by simp)) (fun _ => rfl) hloop
      rw [Stmt.exec]
      refine hlabel.mono ?_ (Nat.le_succ _)
      simp only [Stmt.cost, Nat.succ_mul, Nat.add_assoc, Nat.reduceAdd]
      omega
  | .forLoop x first bound body l =>
      have hlabel := hcode.tail
      have hhead := hlabel.tail
      have hback := hhead.tail.append_right
      have hstop : ip + (Stmt.lower a (.forLoop x first bound body l)).length =
          ip + 1 + 1 + 1 + (Stmt.lowerAll (a + 2) body).length + 1 + 1 + 1 := by
        simp only [Stmt.lower, List.length_append, List.length_cons, List.length_nil]
        omega
      rw [hstop] at h
      have hloop := follows_repeat n (Stmt.costAll n body + 2)
        (do Stmt.execAll call n body; Stmt.countUp x) hcall hhead.head rfl
        (hback.tail.tail.lookup_label hloaded rfl) hK hn hn (fun hK' hn' h' => by
          have hgoto := (Follows.goto hback.tail.head rfl (Loop.passes (by simp))
            (hlabel.lookup_label hloaded rfl) h').of_succ
          have hcount := (Follows.assign (hcall.within (by omega) hn') hback.head rfl
            hgoto).of_succ
          have hbody := follows_execAll hloaded hcall hk hs hhead.tail.append_left
            (by omega) hn' hcount
          rw [Stmt.countUp_eq call]
          simp only [bind_assoc] at hbody ⊢
          exact hbody.mono (by omega) (Nat.le_refl _)) h
      have hstart := (Follows.skip hlabel.head (Loop.passes (by simp)) (fun _ => rfl) hloop).of_succ
      have hassign := Follows.assign (hcall.within (by omega) hn) hcode.head rfl hstart
      simp only [Stmt.exec, Stmt.countsOn_eq, bind_assoc] at hassign ⊢
      refine hassign.mono ?_ (Nat.le_succ _)
      simp only [Stmt.cost, Nat.succ_mul, Nat.add_assoc, Nat.reduceAdd]
      omega

theorem follows_execAll (hloaded : m.program.Loaded) (hcall : m.CallsTrack p q call K n)
    {b : List Stmt} {a ip bottom top : Nat} {inFunction : Bool} {rest : Exec Unit}
    (hk : k = .body → inFunction) (hb : Stmt.structuredAll inFunction b)
    (hcode : m.CodeAt ip (Stmt.lowerAll a b)) (hK : K ≤ bottom) (hn : q ∨ top ≤ n)
    (h : m.Follows p q k (ip + (Stmt.lowerAll a b).length) bottom top rest) :
    m.Follows p q k ip (bottom + Stmt.costAll n b) top (do Stmt.execAll call n b; rest) := by
  match b with
  | [] => simpa [Stmt.execAll, Stmt.costAll, Stmt.lowerAll] using h
  | s :: rest' =>
      obtain ⟨hs, hrest⟩ := Bool.and_eq_true_iff.mp hb
      rw [Stmt.lowerAll, List.length_append, ← Nat.add_assoc] at h
      have htail := follows_execAll hloaded hcall hk hrest hcode.append_right hK hn h
      have hall := follows_exec hloaded hcall hk hs hcode.append_left (by omega) hn htail
      simp only [Stmt.execAll, bind_assoc]
      refine hall.mono ?_ (Nat.le_refl _)
      simp only [Stmt.costAll]
      omega

end

end Machine

end BrownLang
