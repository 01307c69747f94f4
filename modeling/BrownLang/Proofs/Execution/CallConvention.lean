import Mathlib.Data.List.Forall2
import BrownLang.Proofs.Execution.Blame
import BrownLang.Proofs.Execution.Variables
import BrownLang.Proofs.Execution.Words
import BrownLang.Proofs.Syntax.Parts

/-!
# What a call does with its parameters

The parameters of a function are variables like all others.  A call gives them
the values of its arguments, and has the value that `ans` has when the body
comes to a return.  If the function preserves its parameters, they then get
back the words that they had before the call, and nothing else changes.
-/

namespace BrownLang

/-! ## Reading variables -/

namespace State

/-- The byte `i` belongs to the word of one of the variables `xs`. -/
def InWord (s : State) (xs : List String) (i : Nat) : Prop :=
  ∃ x ∈ xs, ∃ a, s.vars.lookup x = some a ∧ a ≤ i ∧ i < a + 4

/-- The variable `x` has its word where the memory `m` has the value `v`. -/
def Marks (s : State) (m : Memory) (x : String) (v : Nat) : Prop :=
  ∃ a, s.vars.lookup x = some a ∧ a + 4 ≤ s.memory.size ∧ m.wordAt a = v

theorem Marks.grows {s t : State} {m : Memory} {x : String} {v : Nat} (h : s.Marks m x v)
    (hg : s.Grows t) : t.Marks m x v := by
  obtain ⟨a, ha, hin, hv⟩ := h
  exact ⟨a, hg.kept x a ha, Nat.le_trans hin hg.size_le, hv⟩

theorem Adds.size_le_of_new {new : List String} {s t : State} (h : s.Adds new t) {x : String}
    (hx : s.vars.lookup x = none) {a : Nat} (ha : t.vars.lookup x = some a) :
    s.memory.size ≤ a := by
  rw [h.vars, List.lookup_append, hx, Option.none_or, Table.lookup_slots] at ha
  split at ha
  · injection ha with ha
    omega
  · exact nomatch ha

end State

namespace Exec

variable {x : String} {xs : List String} {s t : State} {v : Nat} {vs : List Nat}

theorem byteAt_addressOf {a : Nat} (h : addressOf x s = .ok a t) (i : Nat) :
    t.memory.byteAt i = s.memory.byteAt i := by
  cases hx : s.vars.lookup x with
  | some b =>
      rw [addressOf_of_some hx] at h
      injection h with _ ht
      rw [ht]
  | none =>
      rw [addressOf_of_none hx] at h
      injection h with _ ht
      rw [← ht]
      exact s.memory.byteAt_allocateWord i

theorem readVar_ok (h : readVar x s = .ok v t) :
    (∀ i, t.memory.byteAt i = s.memory.byteAt i) ∧ s.Adds (s.unseen x) t ∧
      t.Marks s.memory x v := by
  obtain ⟨a, u, haddr, hu, hadds⟩ := adds_addressOf x s
  rw [readVar, bind_of_ok haddr] at h
  have hin := housed_of_readWord h
  rw [readWord_of_le hin] at h
  injection h with hv ht
  subst hv ht
  have hbytes := byteAt_addressOf haddr
  refine ⟨hbytes, hadds, a, hu, hin, ?_⟩
  simp only [Memory.wordAt, hbytes]

theorem readVars_ok (h : readVars xs s = .ok vs t) :
    (∀ i, t.memory.byteAt i = s.memory.byteAt i) ∧ List.Forall₂ (t.Marks s.memory) xs vs := by
  induction xs generalizing s vs with
  | nil =>
      injection h with hvs ht
      subst hvs ht
      exact ⟨fun _ => rfl, .nil⟩
  | cons x xs ih =>
      obtain ⟨v, u, hx, h⟩ := bind_eq_ok.mp h
      obtain ⟨ws, w, hxs, h⟩ := bind_eq_ok.mp h
      injection h with hvs ht
      subst hvs ht
      obtain ⟨hu, -, hmark⟩ := readVar_ok hx
      obtain ⟨hw, hmarks⟩ := ih hxs
      refine ⟨fun i => (hw i).trans (hu i), .cons ?_ (hmarks.imp fun y n hy => ?_)⟩
      · exact hmark.grows ((local_readVars xs).grows_ok hxs)
      · obtain ⟨a, ha, hin, hn⟩ := hy
        refine ⟨a, ha, hin, ?_⟩
        simpa only [Memory.wordAt, hu] using hn

end Exec

/-! ## Giving words back -/

/-- The words of the variables `xs` are those of the memory `m`, all other bytes those of `m'`. -/
structure State.Restored (r : State) (xs : List String) (m m' : Memory) : Prop where
  within : ∀ i, r.InWord xs i → r.memory.byteAt i = m.byteAt i
  apart : ∀ i, ¬ r.InWord xs i → r.memory.byteAt i = m'.byteAt i

theorem Exec.restored_of_writeVars {xs : List String} {vs : List Nat} {m : Memory} {s t : State}
    (hmarks : List.Forall₂ (s.Marks m) xs vs) (h : writeVars xs vs s = .ok () t) :
    t.vars = s.vars ∧ t.memory.size = s.memory.size ∧ t.Restored xs m s.memory := by
  induction xs generalizing s vs with
  | nil =>
      injection h with _ ht
      subst ht
      exact ⟨rfl, rfl, (fun i ⟨x, hx, _⟩ => nomatch hx), fun _ _ => rfl⟩
  | cons x xs ih =>
      obtain ⟨_, u, hwrite, h⟩ := bind_eq_ok.mp h
      cases hmarks with
      | @cons _ v _ vs hx hxs =>
      obtain ⟨a, ha, hin, hv⟩ := hx
      rw [List.headD_cons, writeVar_of_lookup ha hin] at hwrite
      injection hwrite with _ hu
      have hword : Word.ofInt (v : Int) = v := Word.ofInt_natCast (hv ▸ m.wordAt_lt a)
      rw [hword] at hu
      subst hu
      have hsame : s.Grows { s with memory := s.memory.setWord a v } := .of_eq (by simp) rfl
      obtain ⟨hvars, hsize, hrest⟩ := ih (hxs.imp fun y n hy => hy.grows hsame) h
      refine ⟨hvars, hsize.trans (by simp), fun i hi => ?_, fun i hi => ?_⟩
      · by_cases hin' : t.InWord xs i
        · exact hrest.within i hin'
        -- The byte belongs to the word of `x`, and to none that is written later.
        obtain ⟨y, hy, b, hb, hbi, hib⟩ := hi
        rcases List.mem_cons.mp hy with rfl | hy
        · rw [hvars] at hb
          cases ha.symm.trans hb
          obtain ⟨k, rfl⟩ := Nat.exists_eq_add_of_le hbi
          rw [hrest.apart _ hin', Memory.byteAt_setWord_of_within _ hin (by omega), ← hv,
            Memory.byte_wordAt _ _ (by omega)]
        · exact absurd ⟨y, hy, b, hb, hbi, hib⟩ hin'
      · have hin' : ¬ t.InWord xs i := fun ⟨y, hy, hb⟩ => hi ⟨y, List.mem_cons_of_mem x hy, hb⟩
        have hout : i < a ∨ a + 4 ≤ i := by
          by_contra hwithin
          exact hi ⟨x, .head _, a, hvars ▸ ha, by omega, by omega⟩
        rw [hrest.apart i hin', Memory.byteAt_setWord_of_apart _ _ hout]

/-! ## Giving parameters their values -/

namespace State.LaidOut

variable {p : Program} {names xs : List String} {s : State} (h : s.LaidOut p names)

include h

theorem mem_of_lookup {x : String} (hx : p.dataLabels.lookup x = none) {a : Nat}
    (ha : s.vars.lookup x = some a) : x ∈ names := by
  rw [h.vars, List.lookup_append, hx, Option.none_or, Table.lookup_slots] at ha
  split at ha
  next hmem => exact hmem
  next => exact nomatch ha

theorem addressOf {x : String} (hx : p.dataLabels.lookup x = none) :
    ∃ a t names', Exec.addressOf x s = .ok a t ∧ t.LaidOut p names' ∧ names ⊆ names' ∧
      x ∈ names' ∧ t.vars.lookup x = some a ∧ a + 4 ≤ t.memory.size := by
  obtain ⟨a, t, haddr, ha, hadds⟩ := Exec.adds_addressOf x s
  have ht := h.extend hadds
  have hmem := ht.mem_of_lookup hx ha
  exact ⟨a, t, _, haddr, ht, List.subset_append_left _ _, hmem, ha, (ht.after_data hmem ha).2⟩

theorem readVars (hxs : ∀ x ∈ xs, p.dataLabels.lookup x = none) :
    ∃ vs t names', Exec.readVars xs s = .ok vs t ∧ t.LaidOut p names' := by
  induction xs generalizing s names with
  | nil => exact ⟨[], s, names, rfl, h⟩
  | cons x xs ih =>
      obtain ⟨a, t, names', haddr, ht, -, -, -, hin⟩ := h.addressOf (hxs x (.head _))
      obtain ⟨vs, u, names'', hrest, hu⟩ := ih ht fun y hy => hxs y (List.mem_cons_of_mem x hy)
      refine ⟨t.memory.wordAt a :: vs, u, names'', ?_, hu⟩
      have hread : Exec.readVar x s = .ok (t.memory.wordAt a) t := by
        rw [Exec.readVar, Exec.bind_of_ok haddr, Exec.readWord_of_le hin]
      rw [Exec.readVars, Exec.bind_of_ok hread, Exec.bind_of_ok hrest]
      rfl

theorem setWord (a w : Nat) :
    LaidOut p names { s with memory := s.memory.setWord a w } := by
  have hsame := h.extend (.of_eq rfl (s.memory.size_setWord a w) :
    s.Adds [] { s with memory := s.memory.setWord a w })
  rwa [List.append_nil] at hsame

theorem readVar {x : String} (hx : x ∈ names) :
    ∃ a, s.vars.lookup x = some a ∧ Exec.readVar x s = .ok (s.memory.wordAt a) s := by
  have ha := h.lookup_name hx
  exact ⟨_, ha, Exec.readVar_of_lookup ha (h.after_data hx ha).2⟩

theorem writeVar {x : String} (hx : p.dataLabels.lookup x = none) (v : Int) :
    ∃ t names', Exec.writeVar x v s = .ok () t ∧ t.LaidOut p names' ∧ names ⊆ names' ∧
      x ∈ names' ∧ Exec.readVar x t = .ok (Word.ofInt v) t ∧
      ∀ y ∈ names, y ≠ x → ∀ n, Exec.readVar y s = .ok n s → Exec.readVar y t = .ok n t := by
  obtain ⟨a, t, names', haddr, ht, hsub, hmem, ha, hin⟩ := h.addressOf hx
  have hu := ht.setWord a (Word.ofInt v)
  refine ⟨_, names', ?_, hu, hsub, hmem, ?_, fun y hy hyx n hn => ?_⟩
  · rw [Exec.writeVar, Exec.bind_of_ok haddr, Exec.writeWord_of_le hin]
  · obtain ⟨b, hb, hread⟩ := hu.readVar hmem
    cases ha.symm.trans hb
    rw [hread, Memory.wordAt_setWord _ hin (Word.ofInt_lt v)]
  · obtain ⟨b, hb, hread⟩ := h.readVar hy
    obtain ⟨b', hb', hread'⟩ := hu.readVar (hsub hy)
    have hbt : t.vars.lookup y = some b := ((Exec.local_addressOf x).grows_ok haddr).kept y b hb
    cases hbt.symm.trans hb'
    have hapart := ht.apart hmem (hsub hy) hyx ha hbt
    have hvalue : s.memory.wordAt b = n := (EStateM.Result.ok.inj (hread.symm.trans hn)).1
    rw [hread', Memory.wordAt_setWord_of_apart _ _ hapart, ← hvalue]
    simp only [Memory.wordAt, Exec.byteAt_addressOf haddr]

theorem writeVars (hxs : ∀ x ∈ xs, p.dataLabels.lookup x = none) (hnodup : xs.Nodup)
    (vs : List Nat) :
    ∃ t names', Exec.writeVars xs vs s = .ok () t ∧ t.LaidOut p names' ∧ names ⊆ names' ∧
      (∀ i x, xs[i]? = some x → Exec.readVar x t = .ok (vs.getD i 0 % Word.count) t) ∧
      ∀ y ∈ names, y ∉ xs → ∀ n, Exec.readVar y s = .ok n s → Exec.readVar y t = .ok n t := by
  induction xs generalizing s names vs with
  | nil => exact ⟨s, names, rfl, h, List.Subset.refl _, nofun, fun _ _ _ _ => id⟩
  | cons x xs ih =>
      rw [List.nodup_cons] at hnodup
      obtain ⟨t, names', hwrite, ht, hsub, hmem, hread, hothers⟩ :=
        h.writeVar (hxs x (.head _)) (vs.headD 0 : Nat)
      obtain ⟨u, names'', hrest, hu, hsub', hvalues, hothers'⟩ :=
        ih ht (fun y hy => hxs y (List.mem_cons_of_mem x hy)) hnodup.2 vs.tail
      refine ⟨u, names'', ?_, hu, List.Subset.trans hsub hsub', fun i y hy => ?_, ?_⟩
      · rw [Exec.writeVars, Exec.bind_of_ok hwrite, hrest]
      · cases i with
        | zero =>
            cases hy
            have hlater := hothers' x hmem hnodup.1 _ hread
            rw [hlater, Operator.ofInt_natCast_mod, List.headD_eq_head?_getD,
              List.head?_eq_getElem?, List.getD_eq_getElem?_getD]
        | succ i =>
            rw [hvalues i y hy]
            simp
      · intro y hy hyxs n hn
        have hne : y ≠ x := fun heq => hyxs (heq ▸ .head _)
        have hlater : y ∉ xs := fun hin => hyxs (List.mem_cons_of_mem x hin)
        exact hothers' y (hsub hy) hlater n (hothers y hy hne n hn)

theorem prepare {params : List String} (hparams : ∀ x ∈ params, p.dataLabels.lookup x = none)
    (hnodup : params.Nodup) (preserve : Bool) (args : List Nat) :
    ∃ saved t, Machine.prepare params preserve args s = .ok saved t ∧
      ∀ i x, params[i]? = some x →
        Exec.readVar x t = .ok (args.getD i 0 % Word.count) t := by
  have hpreserved : ∀ x ∈ Machine.preserved params preserve, p.dataLabels.lookup x = none :=
    fun x hx => hparams x (Coupling.Covers.preserved_subset (List.Subset.refl _) preserve hx)
  obtain ⟨saved, t, names', hread, ht⟩ := h.readVars hpreserved
  obtain ⟨u, -, hwrite, -, -, hvalues, -⟩ := ht.writeVars hparams hnodup args
  refine ⟨saved, u, ?_, hvalues⟩
  rw [Machine.prepare, Exec.bind_of_ok hread, Exec.bind_of_ok hwrite]
  rfl

end State.LaidOut

/-! ## Calls -/

theorem Exec.writeVars_take (xs : List String) (vs : List Nat) :
    writeVars xs (vs.take xs.length) = writeVars xs vs := by
  induction xs generalizing vs with
  | nil => rfl
  | cons x xs ih =>
      cases vs with
      | nil => rfl
      | cons v vs =>
          rw [writeVars, writeVars, List.length_cons, List.take_succ_cons, List.tail_cons,
            List.tail_cons, List.headD_cons, List.headD_cons, ih]

namespace Machine

variable (m : Machine) {f : String} {args : List Nat} {entry : Nat} {params : List String}
  {preserve : Bool}

theorem call_take (hres : m.Resolves f args entry params preserve) (body : Exec Unit) :
    m.call body f (args.take params.length) = m.call body f args := by
  have hcount : ¬ (m.options.strictArgs ∧ (args.take params.length).length ≠ params.length) := by
    rintro ⟨hstrict, hne⟩
    have hlen : args.length = params.length :=
      Decidable.not_not.mp fun h => hres.count ⟨hstrict, h⟩
    exact hne (by rw [List.length_take, hlen, Nat.min_self])
  have hres' : m.Resolves f (args.take params.length) entry params preserve :=
    ⟨hres.not_builtin, hres.label, hres.head, hcount⟩
  rw [call_of_resolves _ hres, call_of_resolves _ hres']
  funext s
  rw [enter_eq, enter_eq, prepare, prepare, Exec.writeVars_take]

variable {m}

theorem call_ok_restored {n v : Nat} {s r : State}
    (hres : m.Resolves f args entry params preserve) (h : m.caller n f args s = .ok v r) :
    ∃ u w, m.Enters f args s u ∧ m.loop .body n u = .ok () w ∧
      m.instrAt w.ip = some .funReturn ∧ (∃ w', Exec.readVar returnVariable w = .ok v w') ∧
      w.Adds (w.unseen returnVariable) r ∧
      r.Restored (preserved params preserve) s.memory w.memory ∧
      ∀ x ∈ preserved params preserve, r.Housed x := by
  rw [caller, call_of_resolves _ hres] at h
  obtain ⟨saved, s₁, w, w₁, hprep, hbody, hconc, rfl⟩ := m.enter_ok h
  obtain ⟨hadv, -, hend⟩ := m.executes_untilReturn n _ _ hbody
  have henter : m.Enters f args s (s₁.entered f (m.locAt s.ip) entry) :=
    ⟨entry, params, preserve, saved, s₁, hres, hprep, rfl⟩
  have hhoused := housed_of_prepare hprep
  -- What was saved is what the memory before the call had where the parameters stand.
  obtain ⟨vs, t, hread, hprep⟩ := Exec.bind_eq_ok.mp hprep
  obtain ⟨_, t', hwrite, hpure⟩ := Exec.bind_eq_ok.mp hprep
  injection hpure with hsaved hs₁
  subst hsaved hs₁
  obtain ⟨-, hmarks⟩ := Exec.readVars_ok hread
  obtain ⟨v', w', hans, hconc⟩ := Exec.bind_eq_ok.mp hconc
  obtain ⟨_, w'', hrestore, hpure⟩ := Exec.bind_eq_ok.mp hconc
  injection hpure with hv hw₁
  subst hv hw₁
  obtain ⟨hbytes, hadds, -⟩ := Exec.readVar_ok hans
  have hin : t'.Grows (t'.entered f (m.locAt s.ip) entry) := .of_eq rfl rfl
  have hgrows : t'.Grows w' :=
    (hin.trans hadv.grows).trans ((Exec.local_readVar _).grows_ok hans)
  have hgrows' : t.Grows w' := ((Exec.local_writeVars _ _).grows_ok hwrite).trans hgrows
  obtain ⟨hvars, hsize, hrest⟩ :=
    Exec.restored_of_writeVars (hmarks.imp fun x n hx => hx.grows hgrows') hrestore
  have hstore := w''.store_returned s.ip
  have hm : (w''.returned s.ip).memory = w''.memory := congrArg Store.memory hstore
  have hx : (w''.returned s.ip).vars = w''.vars := congrArg Store.vars hstore
  have hsame : w'.Adds [] (w''.returned s.ip) := .of_eq (hx.trans hvars) (by rw [hm, hsize])
  have hword (i : Nat) :
      (w''.returned s.ip).InWord (preserved params preserve) i ↔
        w''.InWord (preserved params preserve) i := by
    rw [State.InWord, State.InWord, hx]
  refine ⟨_, w, henter, hbody, hend, ⟨w', hans⟩, ?_, ⟨fun i hi => ?_, fun i hi => ?_⟩, ?_⟩
  · have hall := hadds.trans hsame
    rwa [List.append_nil] at hall
  · rw [hm]
    exact hrest.within i ((hword i).mp hi)
  · rw [hm, hrest.apart i fun hi' => hi ((hword i).mpr hi'), hbytes]
  · intro x hxs
    obtain ⟨a, ha, hin⟩ := (hhoused x hxs).grows hgrows
    exact ⟨a, by rw [hx, hvars, ha], by rw [hm, hsize]; exact hin⟩

/--
A call of a function of the program with the arguments `es`.  If the parameters
are distinct and no data labels, its body begins, and there each of them has the
value of its argument, or zero if there is none.  If the call returns, its value
is that of `ans` at the return; and then the words of the parameters that are
preserved are as they were when the arguments had been evaluated, and all other
bytes as the body has left them.
-/
theorem call_convention (m : Machine) (canvas : Canvas) (generator : Generator) {s₀ s : State}
    {n : Nat} {f : String} {es : List Expr} {args : List Nat} {entry : Nat}
    {params : List String} {preserve : Bool} (hs₀ : m.Leads (m.start canvas generator) s₀)
    (hes : m.program.MentionsAll es) (hargs : Expr.evalAll (m.caller n) es s₀ = .ok args s)
    (hres : m.Resolves f args entry params preserve) :
    (params.Nodup → (∀ x ∈ params, m.program.dataLabels.lookup x = none) →
      ∃ u, m.Enters f args s u ∧ u.ip = entry ∧
        ∀ i x, params[i]? = some x →
          Exec.readVar x u = .ok (args.getD i 0 % Word.count) u) ∧
    (∀ body, m.call body f (args.take params.length) = m.call body f args) ∧
    ∀ v r, (Expr.call f es).eval (m.caller n) s₀ = .ok v r →
      ∃ u w, m.Enters f args s u ∧ m.loop .body n u = .ok () w ∧
        m.instrAt w.ip = some .funReturn ∧ (∃ w', Exec.readVar returnVariable w = .ok v w') ∧
        w.Adds (w.unseen returnVariable) r ∧
        r.Restored (preserved params preserve) s.memory w.memory ∧
        ∀ x ∈ preserved params preserve, ∃ a, r.vars.lookup x = some a ∧
          a + 4 ≤ r.memory.size ∧
          (s.vars.lookup x = some a ∨
            s.vars.lookup x = none ∧ ∀ k, s.memory.byteAt (a + k) = 0) := by
  have hadding := covers_adding m.program m.options
  refine ⟨fun hnodup hlabels => ?_, m.call_take hres, fun v r h => ?_⟩
  · obtain ⟨names₀, -, hlaid₀⟩ := State.laidOut_of_leads hs₀
    obtain ⟨new, -, hadds⟩ := hadding.of_evalAll_ok hes hargs
    obtain ⟨saved, t, hprep, hvalues⟩ :=
      (hlaid₀.extend hadds).prepare hlabels hnodup preserve args
    refine ⟨_, ⟨entry, params, preserve, saved, t, hres, hprep, rfl⟩, rfl, fun i x hx => ?_⟩
    have hunder := (Exec.local_readVar x).under t (t.entered f (m.locAt s.ip) entry).control
    rw [hvalues i x hx] at hunder
    exact hunder
  · obtain ⟨args', s', hargs', hcall⟩ := Exec.bind_eq_ok.mp h
    cases hargs.symm.trans hargs'
    obtain ⟨u, w, henter, hbody, hend, hans, hadds, hrestored, hhoused⟩ :=
      call_ok_restored hres hcall
    refine ⟨u, w, henter, hbody, hend, hans, hadds, hrestored, fun x hx => ?_⟩
    obtain ⟨a, ha, hin⟩ := hhoused x hx
    refine ⟨a, ha, hin, ?_⟩
    obtain ⟨new, -, hnew⟩ : State.AddsOnly _ s r := by
      have hall := (hadding.caller n f args).2 s
      rwa [hcall] at hall
    cases hxs : s.vars.lookup x with
    | some b =>
        have hb := ((m.caller_returns n f args s v r hcall).grows).kept x b hxs
        exact .inl (hb.symm.trans ha)
    | none =>
        have hle := hnew.size_le_of_new hxs ha
        exact .inr ⟨rfl, fun k => s.memory.byteAt_of_size_le (Nat.le_add_right_of_le hle)⟩

/-- The function `f` preserves `ans` too, which it makes twice the `x` and the `ans` it is given. -/
def keeper : Machine where
  program := {
    code := (Code.ofBlock [
      .assign (.var "x") (.lit 7) none,
      .function "f" ["x", "ans"] true [
        .assign (.var "x") (.bin (.known .mul) (.var "x") (.lit 2)) none,
        .assign (.word (.addr "ans")) (.bin (.known .add) (.var "x") (.var "ans")) none]
        none]).toArray
    data := []
    labels := [("f", 1)]
    dataLabels := [] }
  options := {}

def keeper.begin : State :=
  (keeper.run 1 (keeper.start (.ofScreen (.standard .off)) (.scripted [] []))).2

def keeper.arguments : List Expr :=
  [.bin (.known .add) (.var "x") (.lit 1), .var "x", .lit 99]

theorem keeper_call : ∃ s r,
    Expr.evalAll (keeper.caller 4) keeper.arguments keeper.begin = .ok [8, 7, 99] s ∧
    (Expr.call "f" keeper.arguments).eval (keeper.caller 4) keeper.begin = .ok 23 r ∧
    (∃ u, keeper.Enters "f" [8, 7, 99] s u ∧ Exec.readVar "x" u = .ok 8 u ∧
      Exec.readVar "ans" u = .ok 7 u) ∧
    ∃ w, r.Restored ["x", "ans"] s.memory w := by
  have hargs : ∃ s, Expr.evalAll (keeper.caller 4) keeper.arguments keeper.begin =
      .ok [8, 7, 99] s := Exec.ok_of_run' (by decide +kernel)
  have hcall : ∃ r, (Expr.call "f" keeper.arguments).eval (keeper.caller 4) keeper.begin =
      .ok 23 r := Exec.ok_of_run' (by decide +kernel)
  obtain ⟨s, hargs⟩ := hargs
  obtain ⟨r, hcall⟩ := hcall
  have hres : keeper.Resolves "f" [8, 7, 99] 1 ["x", "ans"] true :=
    ⟨by decide, rfl, ⟨"f", rfl⟩, by decide⟩
  have hes : keeper.program.MentionsAll keeper.arguments := ⟨by decide, by decide⟩
  obtain ⟨hbinds, -, hreturns⟩ := call_convention keeper _ _ (leads_run _ 1 _) hes hargs hres
  obtain ⟨u, henter, -, hvalues⟩ := hbinds (by decide) (fun _ _ => rfl)
  obtain ⟨-, w, -, -, -, -, -, hrestored, -⟩ := hreturns 23 r hcall
  exact ⟨s, r, hargs, hcall, ⟨u, henter, hvalues 0 "x" rfl, hvalues 1 "ans" rfl⟩, _, hrestored⟩

end Machine

end BrownLang
