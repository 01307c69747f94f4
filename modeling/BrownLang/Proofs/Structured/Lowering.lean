import BrownLang.Proofs.Execution.Visit
import BrownLang.Proofs.Structured.Simulation

/-!
# Lowering preserves meaning

A structured program that is lowered and run ends as it does when it is
executed as it is written, with the same memory, variables, output, drawing
and random numbers; and it does not end if that does not.
-/

namespace BrownLang

open Exec

/-! ## Functions as parts of a program -/

namespace Stmt

mutual

theorem structured_of_mem {s : Stmt} {n : Nat} {d : Definition} (hs : s.structured false)
    (hd : d ∈ s.functions) : structuredAll true d.body ∧ costAll n d.body ≤ s.cost n := by
  match s with
  | assign .. | eval .. | goto .. | label .. => exact nomatch hd
  | function f ps keep body l =>
      rw [functions, List.mem_singleton] at hd
      subst hd
      exact ⟨hs, by simp only [cost]; omega⟩
  | ifThen c yes l =>
      obtain ⟨hbody, hcost⟩ := structuredAll_of_mem (b := yes) (n := n) hs hd
      exact ⟨hbody, by simp only [cost]; omega⟩
  | ifElse c yes no l =>
      obtain ⟨hyes, hno⟩ := Bool.and_eq_true_iff.mp hs
      rcases List.mem_append.mp hd with hd | hd
      · obtain ⟨hbody, hcost⟩ := structuredAll_of_mem (n := n) hyes hd
        exact ⟨hbody, by simp only [cost]; omega⟩
      · obtain ⟨hbody, hcost⟩ := structuredAll_of_mem (n := n) hno hd
        exact ⟨hbody, by simp only [cost]; omega⟩
  | whileLoop c body l =>
      obtain ⟨hbody, hcost⟩ := structuredAll_of_mem (b := body) (n := n) hs hd
      exact ⟨hbody, by simp only [cost, Nat.succ_mul]; omega⟩
  | forLoop x a b body l =>
      obtain ⟨hbody, hcost⟩ := structuredAll_of_mem (b := body) (n := n) hs hd
      exact ⟨hbody, by simp only [cost, Nat.succ_mul]; omega⟩

theorem structuredAll_of_mem {b : List Stmt} {n : Nat} {d : Definition}
    (hb : structuredAll false b) (hd : d ∈ functionsAll b) :
    structuredAll true d.body ∧ costAll n d.body ≤ costAll n b := by
  match b with
  | [] => exact nomatch hd
  | s :: rest =>
      obtain ⟨hs, hrest⟩ := Bool.and_eq_true_iff.mp hb
      rcases List.mem_append.mp hd with hd | hd
      · obtain ⟨hbody, hcost⟩ := structured_of_mem (n := n) hs hd
        exact ⟨hbody, by simp only [costAll]; omega⟩
      · obtain ⟨hbody, hcost⟩ := structuredAll_of_mem (n := n) hrest hd
        exact ⟨hbody, by simp only [costAll]; omega⟩

end

end Stmt

/-! ## Calls -/

namespace Machine

variable {m : Machine} {p q : Prop} {b : Block}

/-- The number of steps that a call takes at most, if calls are nested `n` deep. -/
def reach (b : Block) : Nat → Nat
  | 0 => 0
  | n + 1 => reach b n + 1 + Stmt.costAll n b + 1

theorem Follows.ending {k : Loop} {ip top : Nat} (K : Nat)
    (h : ∀ (M : Nat) (t : State), t.ip = ip → m.loop k (M + 1) t = .ok () t) :
    m.Follows p q k ip (K + 1) top (pure ()) := by
  intro M _ hp s t hstore hip
  cases M with
  | zero =>
      rw [loop_zero]
      rcases hp with hp | hp
      · exact .right hp
      · omega
  | succ M =>
      rw [h M t hip]
      exact .ok hstore

theorem loop_of_return {M : Nat} {t : State} (h : m.instrAt t.ip = some .funReturn) :
    m.loop .body (M + 1) t = .ok () t := by
  have hend : ∀ line, ¬ m.Going .body t line := by
    rintro line ⟨hline, hpass⟩
    rw [instrAt, hline] at h
    exact hpass (Option.some.inj h)
  rcases m.loop_succ_of_not_going (n := M) hend with ⟨hok, -⟩ | ⟨-, hge, -⟩
  · exact hok
  · rw [instrAt, Array.getElem?_eq_none hge] at h
    cases h

theorem loop_of_size_le {M : Nat} {t : State} (h : m.program.code.size ≤ t.ip) :
    m.loop .top (M + 1) t = .ok () t := by
  have hend : ∀ line, ¬ m.Going .top t line := by
    rintro line ⟨hline, -⟩
    rw [Array.getElem?_eq_none h] at hline
    exact nomatch hline
  rcases m.loop_succ_of_not_going (n := M) hend with ⟨hok, -⟩ | ⟨hk, -⟩
  · exact hok
  · exact nomatch hk

theorem matches_body (hloaded : m.program.Loaded) {call : Caller} {K n M : Nat} {d : Definition}
    {entry k : Nat} (hcall : m.CallsTrack p q call K n) (hbody : Stmt.structuredAll true d.body)
    (hat : m.FunctionAt d entry k) (hp : p ∨ K + 1 + Stmt.costAll n d.body + 1 ≤ M)
    (hq : q ∨ M ≤ n + 1) {s t : State} (hstore : s.store = t.store) (hip : t.ip = entry) :
    Matches p q (Stmt.execAll call n d.body s) (m.untilReturn M t) := by
  obtain ⟨line, hline, hinstr⟩ := Option.map_eq_some_iff.mp hat.head
  have hin : q ∨ M - 1 ≤ n := hq.imp id fun hle => by omega
  have hend : m.Follows p q .body (entry + 1 + (Stmt.lowerAll k d.body).length) (K + 1) (M - 1)
      (pure ()) :=
    .ending K fun N u hu => loop_of_return (by rw [hu]; exact hat.ending)
  have hall := follows_execAll hloaded hcall (fun _ => rfl) hbody hat.body (Nat.le_succ K) hin hend
  have hentry := Follows.skip hline (Loop.passes (by simp [hinstr]))
    (fun call => by rw [hinstr]; rfl) hall
  have hmatch := hentry M (by omega) hp s t hstore hip
  rw [bind_pure_unit] at hmatch
  exact hmatch

theorem tracks_enter {d : Definition} {entry : Nat} {x body : Exec Unit} (args : List Nat)
    (hbody : ∀ s t : State, s.store = t.store → t.ip = entry → Matches p q (x s) (body t)) :
    Tracks p q
      (do
        let saved ← prepare d.params d.preserve args
        x
        conclude d.params d.preserve saved)
      (m.enter body d.name entry d.params d.preserve args) := by
  intro s t hstore
  have hprepare : Tracks p q (prepare d.params d.preserve args) _ :=
    .of_local (local_prepare d.params d.preserve args)
  rw [enter_eq]
  refine (hprepare s t hstore).bind fun saved s' t' _ hstore' => ?_
  have hrun := hbody s' (t'.entered d.name (m.locAt t.ip) entry)
    (hstore'.trans (State.store_entered ..).symm) rfl
  change Matches p q _ ((body >>= fun _ => (do
    let result ← conclude d.params d.preserve saved
    modify fun u => u.returned t.ip
    pure result : Exec Nat)) (t'.entered d.name (m.locAt t.ip) entry))
  refine hrun.bind fun _ s'' t'' _ hstore'' => ?_
  have hconclude : Tracks p q (conclude d.params d.preserve saved) _ :=
    .of_local (local_conclude d.params d.preserve saved)
  have hleft : conclude d.params d.preserve saved s'' =
      (conclude d.params d.preserve saved >>= pure) s'' := by
    rw [bind_pure]
  rw [hleft]
  refine (hconclude s'' t'' hstore'').bind fun v w w' _ hw => ?_
  exact .ok (hw.trans (State.store_returned w' t.ip).symm)

theorem tracks_call (hloaded : m.program.Loaded)
    (hcode : m.program.code.toList = Code.ofBlock b) (hb : Stmt.structuredAll false b)
    {execute : Block → Exec Unit} {body : Exec Unit}
    (hbody : ∀ d ∈ Stmt.functionsAll b, ∀ entry k, m.FunctionAt d entry k →
      ∀ s t : State, s.store = t.store → t.ip = entry → Matches p q (execute d.body s) (body t))
    (f : String) (args : List Nat) :
    Tracks p q (Block.call m.options b execute f args) (m.call body f args) := by
  intro s t hstore
  unfold Block.call
  cases hbuiltin : Builtin.ofName? f with
  | some builtin =>
      simp only [call, hbuiltin]
      exact Tracks.of_local (Builtin.local_invoke _ _ _) s t hstore
  | none =>
      cases hfind : (Stmt.functionsAll b).find? (·.name = f) with
      | none =>
          have hnone : ∀ d ∈ Stmt.functionsAll b, d.name ≠ f := by
            intro d hd
            simpa using List.find?_eq_none.mp hfind d hd
          have hmissing := no_function_found hloaded hcode hb hnone
          simp only [call, hbuiltin, callFunction]
          split at hmissing
          next hres =>
            obtain ⟨i, y, hlookup, hinstr⟩ := hmissing
            rw [if_pos hres, hlookup]
            simp only [show (m.program.code[i]?).map CodeLine.instr = some (.label y) from hinstr]
            exact .error hstore
          next hres =>
            rw [if_neg hres, hmissing]
            exact .error hstore
      | some d =>
          have hd := List.mem_of_find?_eq_some hfind
          obtain rfl : d.name = f := by simpa using List.find?_some hfind
          obtain ⟨entry, k, hlookup, hat⟩ := function_found hloaded hcode hd
          by_cases hcount : m.options.strictArgs ∧ args.length ≠ d.params.length
          · simp only [call, hbuiltin, callFunction, hlookup]
            rw [show (m.program.code[entry]?).map CodeLine.instr = _ from hat.head]
            simp only [if_pos hcount]
            exact .error hstore
          · have hresolves : m.Resolves d.name args entry d.params d.preserve :=
              ⟨hbuiltin, hlookup, ⟨d.name, hat.head⟩, hcount⟩
            rw [m.call_of_resolves hresolves]
            simp only [if_neg hcount]
            exact tracks_enter args (hbody d hd entry k hat) s t hstore

theorem callsTrack_caller (hloaded : m.program.Loaded)
    (hcode : m.program.code.toList = Code.ofBlock b) (hb : Stmt.structuredAll false b) (n : Nat) :
    m.CallsTrack p q (Block.caller m.options b n) (reach b n) n := by
  induction n with
  | zero =>
      intro M _ hq
      refine tracks_call hloaded hcode hb fun d _ entry k _ s t _ _ => ?_
      rcases hq with hq | hM
      · exact .left hq
      · obtain rfl : M = 0 := by omega
        exact .both
  | succ n ih =>
      intro M hp hq
      refine tracks_call hloaded hcode hb fun d hd entry k hat s t hstore hip => ?_
      obtain ⟨hbody, hcost⟩ := Stmt.structuredAll_of_mem (n := n) hb hd
      refine matches_body hloaded ih hbody hat (hp.imp id fun hle => ?_) hq hstore hip
      rw [reach] at hle
      omega

/-! ## Whole runs -/

theorem matches_loop (hloaded : m.program.Loaded)
    (hcode : m.program.code.toList = Code.ofBlock b) (hb : Stmt.structuredAll false b) {n M : Nat}
    (hp : p ∨ reach b n + 1 + Stmt.costAll n b ≤ M) (hq : q ∨ M ≤ n) {s t : State}
    (hstore : s.store = t.store) (hip : t.ip = 0) :
    Matches p q (Stmt.execAll (Block.caller m.options b n) n b s) (m.loop .top M t) := by
  have hsize : m.program.code.size = (Stmt.lowerAll 0 b).length := by
    rw [← Array.length_toList, hcode]
    rfl
  have hend : m.Follows p q .top (0 + (Stmt.lowerAll 0 b).length) (reach b n + 1) M (pure ()) :=
    .ending _ fun N u hu => loop_of_size_le (by omega)
  have hcalls := callsTrack_caller (p := p) (q := q) hloaded hcode hb n
  have htop : Loop.top = .body → false = true := fun h => Loop.noConfusion h
  have hall := follows_execAll hloaded hcalls htop hb (.of_toList hcode) (Nat.le_succ _) hq hend
  have hmatch := hall M (Nat.le_refl M) hp s t hstore hip
  rw [bind_pure_unit] at hmatch
  exact hmatch

def Ending.outcome? : Ending → Option Outcome
  | exited code => some (.exited code)
  | crashed crash => some (.failed crash.fault)
  | unfinished => none

theorem run_outcome (m : Machine) (fuel : Nat) (s : State) :
    (m.run fuel s).1.outcome? = Result.outcome? (m.loop .top fuel s.begun) ∧
      (m.run fuel s).2.store = (Result.state (m.loop .top fuel s.begun)).store := by
  rw [run_eq]
  cases m.loop .top fuel s.begun with
  | ok _ t => exact ⟨rfl, rfl⟩
  | error h t => cases h <;> exact ⟨rfl, rfl⟩

/--
A structured program that has been loaded is run to an outcome, with a store
that is left then, just if it comes to this outcome and store when it is
executed as it is written.
-/
theorem run_iff_structured_run {source : Source} {m : Machine}
    (hloads : Program.ofSource source = .ok m.program)
    (hstructured : Stmt.structuredAll false source.code) (canvas : Canvas)
    (generator : Generator) (o : Outcome) (w : Store) :
    (∃ fuel, (m.run fuel (m.start canvas generator)).1.outcome? = some o ∧
      (m.run fuel (m.start canvas generator)).2.store = w) ↔
    ∃ n, Block.run m.options source.code n (m.start canvas generator).store = (some o, w) := by
  have hloaded := Program.loaded_of_ofSource hloads
  obtain ⟨d, -, -, hcode, -, -⟩ := Program.ofSource_ok hloads
  have hlist : m.program.code.toList = Code.ofBlock source.code := by rw [hcode]
  generalize hbegin : m.start canvas generator = begin
  have hip : begin.begun.ip = 0 := by
    rw [← hbegin]
    rfl
  constructor
  -- A run of `fuel` steps has no more than `fuel` iterations of a loop and calls in each other.
  · rintro ⟨fuel, hout, hstore⟩
    obtain ⟨hsame, hsame'⟩ := m.run_outcome fuel begin
    rw [hsame] at hout
    rw [hsame'] at hstore
    have hmatch := matches_loop (p := True) (q := False) (n := fuel) (M := fuel) hloaded hlist
      hstructured (.inl trivial) (.inr (Nat.le_refl fuel)) (s := begin.store.idle)
      (t := begin.begun) rfl hip
    obtain ⟨hout', hstore'⟩ := hmatch.symm.outcome hout
    exact ⟨fuel, Prod.ext hout' (hstore'.trans hstore)⟩
  -- The bound `n` bounds the number of steps too, if the size of the program is given.
  · rintro ⟨n, hrun⟩
    have hout := congrArg Prod.fst hrun
    have hstore := congrArg Prod.snd hrun
    have hmatch := matches_loop (p := False) (q := True) (n := n)
      (M := reach source.code n + 1 + Stmt.costAll n source.code) hloaded hlist
      hstructured (.inr (Nat.le_refl _)) (.inl trivial) (s := begin.store.idle)
      (t := begin.begun) rfl hip
    obtain ⟨hout', hstore'⟩ := hmatch.outcome hout
    obtain ⟨hsame, hsame'⟩ := m.run_outcome
      (reach source.code n + 1 + Stmt.costAll n source.code) begin
    exact ⟨_, hsame.trans hout', hsame'.trans (hstore'.trans hstore)⟩

def doubling : Source where
  data := [.label "n", .bytes [0, 0, 0, 7]]
  code := [
    .forLoop "i" (.lit 0) (.lit 3) [
      .function "double" ["n"] true [
        .assign (.var "ans") (.bin (.known .add) (.var "n") (.var "n")) none] none,
      .ifThen (.var "i") [
        .eval (.call "println" [.call "double" [.var "i"]]) none] none] none]

theorem doubling_run_iff : ∃ program,
    Program.ofSource doubling = .ok program ∧ Stmt.structuredAll false doubling.code ∧
    ∀ options canvas generator o w,
      (∃ fuel, ((Machine.mk program options).run fuel
          ((Machine.mk program options).start canvas generator)).1.outcome? = some o ∧
        ((Machine.mk program options).run fuel
          ((Machine.mk program options).start canvas generator)).2.store = w) ↔
      ∃ n, Block.run options doubling.code n
        ((Machine.mk program options).start canvas generator).store = (some o, w) := by
  have hloads : ∃ program, Program.ofSource doubling = .ok program := ⟨_, rfl⟩
  have hstructured : Stmt.structuredAll false doubling.code := by decide
  obtain ⟨program, hloads⟩ := hloads
  refine ⟨program, hloads, hstructured, fun options canvas generator o w => ?_⟩
  exact run_iff_structured_run (m := ⟨program, options⟩) hloads hstructured canvas generator o w

end Machine

end BrownLang
