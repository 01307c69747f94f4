import BrownLang.Proofs.Execution.CallConvention
import BrownLang.Proofs.Execution.Path
import BrownLang.Proofs.Structured.Simulation

/-!
# How often a counting loop runs

In code a counting loop is labels and jumps, and its body may be anything.  If
the body always comes to its end and leaves the counter as it is, and the bound
is the same each time, then the counter goes from the first value up to the
bound, the body is executed once for each value below it, and the addition
never leaves the range of words.
-/

namespace BrownLang

open Exec

/-! ## Reading a variable that is there -/

namespace Exec

variable {x : String} {s t : State} {v : Nat}

theorem readVar_same_iff : readVar x s = .ok v s ↔ s.Marks s.memory x v := by
  constructor
  · intro h
    exact (readVar_ok h).2.2
  · rintro ⟨a, ha, hin, rfl⟩
    exact readVar_of_lookup ha hin

theorem readVar_congr (h : readVar x s = .ok v s) (hm : t.memory = s.memory)
    (hv : t.vars = s.vars) : readVar x t = .ok v t := by
  rw [readVar_same_iff] at h ⊢
  rwa [State.Marks, hm, hv]

theorem readVar_of_writeVar (hroom : s.Roomy x) (hv : v < Word.count) :
    ∃ t, writeVar x v s = .ok () t ∧ readVar x t = .ok v t ∧ t.ip = s.ip := by
  obtain ⟨a, u, haddr, hu, -⟩ := adds_addressOf x s
  obtain ⟨b, w, haddr', hin⟩ := addressOf_of_roomy hroom
  cases haddr.symm.trans haddr'
  have hwrite : writeVar x v s = .ok () { u with memory := u.memory.setWord a v } := by
    rw [writeVar, bind_of_ok haddr, writeWord_of_le hin, Word.ofInt_natCast hv]
  refine ⟨_, hwrite, ?_, (State.evolution_returns.of_local_ok (local_writeVar x v) hwrite).ip_eq⟩
  rw [readVar_same_iff]
  exact ⟨a, hu, by simpa using hin, Memory.wordAt_setWord _ hin hv⟩

end Exec

namespace Machine

variable {m : Machine}

theorem execute_assign_var {call : Caller} {x : String} {e : Expr} {v : Nat} {s t u : State}
    (heval : e.eval call s = .ok v t) (hwrite : writeVar x v t = .ok () u) :
    m.execute call (.assign (.var x) e) s = .ok () u := by
  rw [execute, bind_of_ok heval]
  exact hwrite

theorem execute_jumpFalse {call : Caller} {e : Expr} {l : String} {v i : Nat} {s t : State}
    (heval : e.eval call s = .ok v t) (hl : m.program.labels.lookup l = some i) :
    m.execute call (.jumpFalse e l) s = .ok () (if v = 0 then { t with ip := i } else t) := by
  rw [execute, bind_of_ok heval, jump_of_lookup hl]
  split <;> rfl

/-! ## The code of a counting loop -/

/-- A counting loop of which the code stands in the code of the program. -/
structure CountingLoop (m : Machine) where
  counter : String
  first : Expr
  bound : Expr
  body : Block
  loc : Option Location
  base : Nat
  ip : Nat
  loaded : m.program.Loaded
  placed : m.CodeAt ip (Stmt.lower base (.forLoop counter first bound body loc))

namespace CountingLoop

variable {m : Machine} (c : m.CountingLoop)

def code : Code := Stmt.lower c.base (.forLoop c.counter c.first c.bound c.body c.loc)

def initLine : CodeLine := ⟨.assign (.var c.counter) c.first, c.loc⟩

def testLine : CodeLine :=
  ⟨.jumpFalse (.bin (.known .lt) (.var c.counter) c.bound) (madeLabel (c.base + 1)), c.loc⟩

def countLine : CodeLine :=
  ⟨.assign (.var c.counter) (.bin (.known .add) (.var c.counter) (.lit 1)), c.loc⟩

def test : Nat := c.ip + 2

def bodyStart : Nat := c.test + 1

def bodyEnd : Nat := c.bodyStart + (Stmt.lowerAll (c.base + 2) c.body).length

def exit : Nat := c.bodyEnd + 3

theorem exit_eq : c.exit = c.ip + c.code.length := by
  simp [exit, bodyEnd, bodyStart, test, code, Stmt.lower]
  omega

theorem test_ne_exit : c.test ≠ c.exit := by
  simp only [exit, bodyEnd, bodyStart]
  omega

theorem bodyStart_le_bodyEnd : c.bodyStart ≤ c.bodyEnd := Nat.le_add_right ..

/-! ### Single instructions -/

theorem init_at : m.program.code[c.ip]? = some c.initLine := c.placed.head

theorem start_at : m.CodeAt (c.ip + 1)
    (⟨.label (madeLabel c.base), c.loc⟩ :: c.testLine :: Stmt.lowerAll (c.base + 2) c.body ++
      [c.countLine, ⟨.goto (madeLabel c.base), c.loc⟩,
        ⟨.label (madeLabel (c.base + 1)), c.loc⟩]) :=
  c.placed.tail

theorem test_at : m.program.code[c.test]? = some c.testLine := c.start_at.tail.head

theorem count_at : m.CodeAt c.bodyEnd [c.countLine, ⟨.goto (madeLabel c.base), c.loc⟩,
    ⟨.label (madeLabel (c.base + 1)), c.loc⟩] :=
  c.start_at.tail.tail.append_right

theorem lookup_start : m.program.labels.lookup (madeLabel c.base) = some (c.ip + 1) :=
  c.start_at.lookup_label c.loaded rfl

theorem lookup_exit : m.program.labels.lookup (madeLabel (c.base + 1)) = some (c.bodyEnd + 2) :=
  c.count_at.tail.tail.lookup_label c.loaded rfl

variable {c} {k : Loop} {s t : State} {N v n : Nat}

theorem path_to_test (hs : s.ip = c.ip)
    (hfirst : c.first.eval (m.caller N) (s.recorded m.options.verbose c.initLine) = .ok v t)
    (hroom : t.Roomy c.counter) (hv : v < Word.count) :
    ∃ s₁ u, m.Path k s [s, s₁] u ∧ s₁.ip = c.ip + 1 ∧ u.ip = c.test ∧
      readVar c.counter u = .ok v u := by
  obtain ⟨w, hwrite, hread, hw⟩ := readVar_of_writeVar hroom hv
  have hip : w.ip = c.ip := by
    rw [hw, (m.eval_returns hfirst).ip_eq]
    exact hs
  have hinit : m.Going k s c.initLine := ⟨by rw [hs, c.init_at], Loop.passes nofun⟩
  have hlabel : m.Going k { w with ip := w.ip + 1 } ⟨.label (madeLabel c.base), c.loc⟩ :=
    ⟨by simpa [hip] using c.start_at.head, Loop.passes nofun⟩
  have hpath := Path.of_execute hinit (execute_assign_var hfirst hwrite)
  refine ⟨_, _, hpath.append (Path.of_execute (n := 0) hlabel rfl), ?_, ?_,
    readVar_congr hread rfl rfl⟩
  · exact congrArg (· + 1) hip
  · exact congrArg (· + 2) hip

theorem path_of_test (hs : s.ip = c.test) (hread : readVar c.counter s = .ok v s)
    (hbound : c.bound.eval (m.caller N) (s.recorded m.options.verbose c.testLine) = .ok n t)
    (hpure : t.store = s.store) :
    ∃ u, m.Path k s [s] u ∧ u.ip = (if v < n then c.bodyStart else c.exit) ∧
      readVar c.counter u = .ok v u := by
  have hgo : m.Going k s c.testLine := ⟨by rw [hs, c.test_at], Loop.passes nofun⟩
  have hread' : readVar c.counter (s.recorded m.options.verbose c.testLine) =
      .ok v (s.recorded m.options.verbose c.testLine) := readVar_congr hread rfl rfl
  have heval : Expr.eval (m.caller N) (.bin (.known .lt) (.var c.counter) c.bound)
      (s.recorded m.options.verbose c.testLine) = .ok (if v < n then 1 else 0) t := by
    rw [Expr.eval, Expr.eval, bind_of_ok hread', bind_of_ok hbound]
    rfl
  have hip : t.ip = c.test := (m.eval_returns hbound).ip_eq.trans hs
  refine ⟨_, Path.of_execute hgo (execute_jumpFalse heval c.lookup_exit), ?_, ?_⟩
  · by_cases hlt : v < n
    · simp [hlt, hip, bodyStart]
    · simp [hlt, exit]
  · have hm : t.memory = s.memory := congrArg Store.memory hpure
    have hv : t.vars = s.vars := congrArg Store.vars hpure
    apply readVar_congr hread <;> split <;> assumption

theorem path_of_count (hs : s.ip = c.bodyEnd) (hread : readVar c.counter s = .ok v s)
    (hv : v + 1 < Word.count) :
    ∃ s₁ u, m.Path k s [s, s₁] u ∧ s₁.ip = c.bodyEnd + 1 ∧ u.ip = c.test ∧
      readVar c.counter u = .ok (v + 1) u := by
  have hread' : readVar c.counter (s.recorded m.options.verbose c.countLine) =
      .ok v (s.recorded m.options.verbose c.countLine) := readVar_congr hread rfl rfl
  have heval : Expr.eval (m.caller 0) (.bin (.known .add) (.var c.counter) (.lit 1))
      (s.recorded m.options.verbose c.countLine) =
      .ok (v + 1) (s.recorded m.options.verbose c.countLine) := by
    rw [Stmt.eval_succ, bind_of_ok hread']
    exact congrArg (EStateM.Result.ok · _) (Word.ofInt_natCast hv)
  have hroom := (housed_of_readVar hread').roomy
  obtain ⟨w, hwrite, hcounted, hw⟩ := readVar_of_writeVar hroom hv
  have hip : w.ip = c.bodyEnd := hw.trans hs
  have hcount : m.Going k s c.countLine := ⟨by rw [hs, c.count_at.head], Loop.passes nofun⟩
  have hgoto : m.Going k { w with ip := w.ip + 1 } ⟨.goto (madeLabel c.base), c.loc⟩ :=
    ⟨by simpa [hip] using c.count_at.tail.head, Loop.passes nofun⟩
  have hjump : m.execute (m.caller 0) (.goto (madeLabel c.base)) = jumpTo (c.ip + 1) := by
    rw [execute, jump_of_lookup c.lookup_start]
  have hpath := Path.of_execute hcount (execute_assign_var heval hwrite)
  have hback := Path.of_execute hgoto (congrFun hjump _)
  refine ⟨_, _, hpath.append hback, congrArg (· + 1) hip, rfl, readVar_congr hcounted rfl rfl⟩

/-! ### Rounds -/

variable (c)

/-- The loop `k` comes from `s` to `u` without having been at the end of the counting loop. -/
def Inside (k : Loop) (s u : State) : Prop :=
  ∃ us, m.Path k s us u ∧ ∀ w ∈ us, w.ip ≠ c.exit

/-- From `u` the body comes to its end, and neither leaves the loop nor goes around it before. -/
def Completes (k : Loop) (u : State) (v : Nat) : Prop :=
  ∃ us t, m.Path k u us t ∧ (∀ w ∈ us, w.ip ≠ c.test ∧ w.ip ≠ c.exit) ∧ t.ip = c.bodyEnd ∧
    readVar c.counter t = .ok v t

/-- Of the states that a loop which begins in `s` comes to, this is what has to be known. -/
structure Regular (k : Loop) (s : State) (n : Nat) : Prop where
  bound : ∀ u, c.Inside k s u → u.ip = c.test →
    ∃ N t, c.bound.eval (m.caller N) (u.recorded m.options.verbose c.testLine) = .ok n t ∧
      t.store = u.store
  body : ∀ u v, c.Inside k s u → u.ip = c.bodyStart → readVar c.counter u = .ok v u →
    c.Completes k u v

/-- On the way from `s` to `t` the body begins once for each of `vs`, the value of the counter. -/
structure Counts (k : Loop) (s : State) (us : List State) (vs : List Nat) (t : State) : Prop where
  path : m.Path k s us t
  inside : ∀ u ∈ us, u.ip ≠ c.exit
  values : List.Forall₂ (fun u v => readVar c.counter u = .ok v u)
    (us.filter fun u => u.ip = c.bodyStart) vs

variable {c} {u : State} {us us' : List State} {vs vs' : List Nat}

theorem Counts.append (h : c.Counts k s us vs t) (h' : c.Counts k t us' vs' u) :
    c.Counts k s (us ++ us') (vs ++ vs') u where
  path := h.path.append h'.path
  inside := List.forall_mem_append.mpr ⟨h.inside, h'.inside⟩
  values := by
    rw [List.filter_append]
    exact List.rel_append h.values h'.values

theorem Inside.trans (h : c.Inside k s t) (hpath : m.Path k t us u)
    (hus : ∀ w ∈ us, w.ip ≠ c.exit) : c.Inside k s u := by
  obtain ⟨us₀, hpath₀, hus₀⟩ := h
  exact ⟨us₀ ++ us, hpath₀.append hpath, List.forall_mem_append.mpr ⟨hus₀, hus⟩⟩

theorem counts_of_body {b e e₁ : State} (hs : s.ip = c.test) (htest : m.Path k s [s] b)
    (hb : b.ip = c.bodyStart) (hread : readVar c.counter b = .ok v b)
    (hbody : m.Path k b us e) (hin : ∀ w ∈ us, w.ip ≠ c.test ∧ w.ip ≠ c.exit)
    (he : e.ip = c.bodyEnd) (hcount : m.Path k e [e, e₁] t) (he₁ : e₁.ip = c.bodyEnd + 1) :
    c.Counts k s ([s] ++ us ++ [e, e₁]) [v] t where
  path := (htest.append hbody).append hcount
  inside := by
    intro w hw
    simp only [List.mem_append, List.mem_cons, List.not_mem_nil, or_false] at hw
    rcases hw with (rfl | hw) | rfl | rfl
    · rw [hs]
      exact c.test_ne_exit
    · exact (hin w hw).2
    · simp [he, exit]
    · simp [he₁, exit]
  values := by
    have honce : (us ++ [e]).filter (fun w => w.ip = c.bodyStart) =
        [b].filter fun w => w.ip = c.bodyStart :=
      hbody.filter_behind c.loaded c.test_at rfl fun w hw => (hin w hw).1
    have hearly : c.test ≠ c.bodyStart := Nat.ne_of_lt (Nat.lt_succ_self _)
    have hlate : c.bodyEnd + 1 ≠ c.bodyStart :=
      Nat.ne_of_gt (Nat.lt_succ_of_le c.bodyStart_le_bodyEnd)
    have hsplit : [s] ++ us ++ [e, e₁] = [s] ++ (us ++ [e]) ++ [e₁] := by simp
    rw [hsplit, List.filter_append, List.filter_append, honce]
    simp [hs, hb, he₁, hearly, hlate, hread]

theorem Regular.round (h : c.Regular k s n) (hn : n < Word.count) (hin : c.Inside k s u)
    (hu : u.ip = c.test) (hread : readVar c.counter u = .ok v u) (hlt : v < n) :
    ∃ us t, c.Counts k u us [v] t ∧ t.ip = c.test ∧ readVar c.counter t = .ok (v + 1) t := by
  obtain ⟨N, t, hbound, hpure⟩ := h.bound u hin hu
  obtain ⟨b, htest, hb, hbread⟩ := path_of_test (k := k) hu hread hbound hpure
  rw [if_pos hlt] at hb
  have hinb : c.Inside k s b := hin.trans htest (by simpa [hu] using c.test_ne_exit)
  obtain ⟨us, e, hbody, hus, he, hkept⟩ := h.body b v hinb hb hbread
  obtain ⟨e₁, w, hcount, he₁, hw, hnext⟩ := path_of_count (k := k) he hkept (by omega)
  exact ⟨_, w, counts_of_body hu htest hb hbread hbody hus he hcount he₁, hw, hnext⟩

theorem Regular.rounds (h : c.Regular k s n) (hn : n < Word.count) (hin : c.Inside k s u)
    (hu : u.ip = c.test) (hread : readVar c.counter u = .ok v u) :
    ∃ us t, c.Counts k u us (List.range' v (n - v)) t ∧ t.ip = c.exit ∧
      readVar c.counter t = .ok (max v n) t := by
  induction hd : n - v generalizing u v with
  | zero =>
      obtain ⟨N, t, hbound, hpure⟩ := h.bound u hin hu
      obtain ⟨w, htest, hw, hwread⟩ := path_of_test (k := k) hu hread hbound hpure
      rw [if_neg (by omega)] at hw
      rw [show max v n = v by omega]
      refine ⟨[u], w, ⟨htest, ?_, ?_⟩, hw, hwread⟩
      · simpa [hu] using c.test_ne_exit
      · simp [hu, bodyStart]
  | succ d ih =>
      obtain ⟨us, t, hround, ht, hnext⟩ := h.round hn hin hu hread (by omega)
      have hint := hin.trans hround.path hround.inside
      obtain ⟨us', w, hrest, hw, hlast⟩ := ih hint ht hnext (by omega)
      rw [show max (v + 1) n = max v n by omega] at hlast
      refine ⟨us ++ us', w, ?_, hw, hlast⟩
      rw [List.range'_succ]
      exact hround.append hrest

/--
A counting loop is at the beginning of its code, the first value of its counter
is `first`, the counter has or gets a word in memory, the bound is `n` each time,
and the body completes each time.  Then the body begins just `n - first` times,
with the counter at `first`, at `first + 1` and so on up to `n - 1`, and
afterwards the program goes on behind the loop, with the counter at the greater
one of `first` and `n`.
-/
theorem body_runs_once_for_each (c : m.CountingLoop) {k : Loop} {s t : State} {N first n : Nat}
    (hs : s.ip = c.ip)
    (hfirst : c.first.eval (m.caller N) (s.recorded m.options.verbose c.initLine) = .ok first t)
    (hroom : t.Roomy c.counter) (hlt : first < Word.count) (hn : n < Word.count)
    (hregular : c.Regular k s n) :
    ∃ us u, c.Counts k s us (List.range' first (n - first)) u ∧ u.ip = c.ip + c.code.length ∧
      readVar c.counter u = .ok (max first n) u ∧
      ∃ K, ∀ M, K ≤ M → m.loop k (us.length + M) s = m.loop k M u := by
  obtain ⟨s₁, u, hinit, hs₁, hu, hread⟩ := path_to_test (k := k) hs hfirst hroom hlt
  have hbegin : c.Counts k s [s, s₁] [] u := by
    refine ⟨hinit, ?_, ?_⟩
    · have hexit := c.bodyStart_le_bodyEnd
      simp only [bodyStart, test] at hexit
      simp [hs, hs₁, exit]
      omega
    · simp [hs, hs₁, bodyStart, test]
      omega
  have hinside : c.Inside k s u := ⟨_, hbegin.path, hbegin.inside⟩
  obtain ⟨us, w, hrounds, hw, hlast⟩ := hregular.rounds hn hinside hu hread
  have hall := hbegin.append hrounds
  rw [c.exit_eq] at hw
  exact ⟨_, w, hall, hw, hlast, hall.path.loop_eq⟩

def brink : Source where
  data := []
  code := [.forLoop "i" (.lit 4294967293) (.lit 4294967295)
    [.eval (.call "println" [.var "i"]) none] none]

def brink.program : Program where
  code := (Code.ofBlock brink.code).toArray
  data := []
  labels := [("$internal_0", 1), ("$internal_1", 6)]
  dataLabels := []

theorem brink_loads : Program.ofSource brink = .ok brink.program := by rfl

def brink.loop : CountingLoop ⟨brink.program, {}⟩ where
  counter := "i"
  first := .lit 4294967293
  bound := .lit 4294967295
  body := [.eval (.call "println" [.var "i"]) none]
  loc := none
  base := 0
  ip := 0
  loaded := Program.loaded_of_ofSource brink_loads
  placed := by
    have hall : (Machine.mk brink.program {}).CodeAt 0 (Code.ofBlock brink.code) := .of_toList rfl
    simpa [Code.ofBlock, brink, Stmt.lowerAll] using hall

theorem brink.regular (k : Loop) (s : State) : brink.loop.Regular k s 4294967295 where
  bound u _ _ := ⟨0, _, rfl, rfl⟩
  body := by
    intro u v _ hu hread
    let m : Machine := ⟨brink.program, {}⟩
    let line : CodeLine := ⟨.eval (.call "println" [.var "i"]), none⟩
    have hgo : m.Going k u line := ⟨by rw [hu]; rfl, Loop.passes nofun⟩
    have hread' : readVar "i" (u.recorded m.options.verbose line) =
        .ok v (u.recorded m.options.verbose line) := readVar_congr hread rfl rfl
    have hexec : m.execute (m.caller 0) line.instr (u.recorded m.options.verbose line) =
        .ok () { u.recorded m.options.verbose line with
          writes := u.writes.push (Text.decimal v ++ "\n") } := by
      change ((Expr.call "println" [.var "i"]).eval (m.caller 0) >>= fun _ => pure ()) _ = _
      rw [Expr.eval, Expr.evalAll, Expr.eval, bind_assoc, bind_assoc, bind_of_ok hread']
      rfl
    refine ⟨[u], _, Path.of_execute hgo hexec, ?_, congrArg (· + 1) hu,
      readVar_congr hread rfl rfl⟩
    intro w hw
    rw [List.mem_singleton.mp hw, hu]
    exact ⟨by decide, by decide⟩

theorem brink_body_runs_twice : Program.ofSource brink = .ok brink.program ∧
    ∀ canvas generator,
    let s := (Machine.mk brink.program {}).start canvas generator
    brink.loop.Regular .top s 4294967295 ∧
    ∃ us u, brink.loop.Counts .top s us [4294967293, 4294967294] u ∧ u.ip = 7 ∧
      readVar "i" u = .ok 4294967295 u ∧
      ∃ K, ∀ M, K ≤ M → (Machine.mk brink.program {}).loop .top (us.length + M) s =
        (Machine.mk brink.program {}).loop .top M u := by
  refine ⟨brink_loads, fun canvas generator => ?_⟩
  intro s
  have hregular := brink.regular .top s
  have hfirst : brink.loop.first.eval ((Machine.mk brink.program {}).caller 0)
      (s.recorded false brink.loop.initLine) =
      .ok 4294967293 (s.recorded false brink.loop.initLine) := rfl
  have hroom : (s.recorded false brink.loop.initLine).Roomy "i" := nofun
  obtain ⟨us, u, hcounts, hu, hlast, hloop⟩ :=
    body_runs_once_for_each brink.loop rfl hfirst hroom (by decide) (by decide) hregular
  exact ⟨hregular, us, u, hcounts, hu, hlast, hloop⟩

end CountingLoop

end Machine

end BrownLang
