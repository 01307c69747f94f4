import BrownLang.Proofs.Execution.Transition
import BrownLang.Proofs.Memory.Bytes
import Mathlib.Data.List.Dedup
import Mathlib.Data.List.Perm.Subperm

/-!
# Where the variables are

Memory begins with the data.  Each variable that is no data label has a word
after the data, and these words stand side by side in the order in which the
variables were first used.  Nothing else makes memory longer, and nothing moves
a variable.
-/

namespace BrownLang

/-! ## Words side by side -/

def Table.slots (a : Nat) : List String → Table
  | [] => []
  | x :: xs => (x, a) :: slots (a + 4) xs

namespace Table

theorem slots_append (a : Nat) (xs ys : List String) :
    slots a (xs ++ ys) = slots a xs ++ slots (a + 4 * xs.length) ys := by
  induction xs generalizing a with
  | nil => rfl
  | cons x xs ih =>
      have hlen : a + 4 * (x :: xs).length = a + 4 + 4 * xs.length := by
        rw [List.length_cons]
        omega
      rw [hlen, List.cons_append, slots, slots, ih, List.cons_append]

theorem map_fst_slots (a : Nat) (xs : List String) : (slots a xs).map Prod.fst = xs := by
  induction xs generalizing a with
  | nil => rfl
  | cons x xs ih => rw [slots, List.map_cons, ih]

theorem lookup_eq_none_of_notMem {t : Table} {x : String} (h : x ∉ t.map Prod.fst) :
    t.lookup x = none := by
  refine List.lookup_eq_none_iff.mpr fun p hp => bne_iff_ne.mpr ?_
  rintro rfl
  exact h (List.mem_map_of_mem hp)

theorem lookup_slots (a : Nat) (xs : List String) (x : String) :
    (slots a xs).lookup x = if x ∈ xs then some (a + 4 * xs.idxOf x) else none := by
  induction xs generalizing a with
  | nil => rfl
  | cons y ys ih =>
      rw [slots]
      by_cases hxy : x = y
      · subst hxy
        simp
      · have hidx : (y :: ys).idxOf x = ys.idxOf x + 1 := by
          rw [List.idxOf_cons, beq_false_of_ne (Ne.symm hxy)]
          rfl
        rw [List.lookup_cons, beq_false_of_ne hxy, hidx]
        simp only [ih, List.mem_cons, hxy, false_or]
        split
        · congr 1
          omega
        · rfl

end Table

/-! ## New variables -/

namespace State

/-- The variables `new`, and no others, have come to the end of memory. -/
structure Adds (new : List String) (s t : State) : Prop where
  vars : t.vars = s.vars ++ Table.slots s.memory.size new
  size : t.memory.size = s.memory.size + 4 * new.length
  nodup : new.Nodup
  fresh : ∀ x ∈ new, s.vars.lookup x = none

theorem Adds.of_eq {s t : State} (hv : t.vars = s.vars) (hm : t.memory.size = s.memory.size) :
    Adds [] s t := by
  refine ⟨?_, hm, .nil, fun x hx => nomatch hx⟩
  rw [hv, Table.slots, List.append_nil]

theorem Adds.lookup_eq_none_iff {new : List String} {s t : State} (h : Adds new s t)
    (x : String) : t.vars.lookup x = none ↔ s.vars.lookup x = none ∧ x ∉ new := by
  rw [h.vars, List.lookup_append, Option.or_eq_none_iff, Table.lookup_slots]
  simp

theorem Adds.trans {new more : List String} {s t u : State} (h : Adds new s t)
    (k : Adds more t u) : Adds (new ++ more) s u where
  vars := by
    rw [k.vars, h.vars, h.size, Table.slots_append, List.append_assoc]
  size := by
    rw [k.size, h.size, List.length_append]
    omega
  nodup := by
    refine List.nodup_append.mpr ⟨h.nodup, k.nodup, ?_⟩
    rintro x hx y hy rfl
    exact ((h.lookup_eq_none_iff x).mp (k.fresh x hy)).2 hx
  fresh x hx := by
    rcases List.mem_append.mp hx with hx | hx
    · exact h.fresh x hx
    · exact ((h.lookup_eq_none_iff x).mp (k.fresh x hx)).1

def AddsOnly (names : List String) (s t : State) : Prop := ∃ new, new ⊆ names ∧ s.Adds new t

theorem AddsOnly.of_eq {names : List String} {s t : State} (hv : t.vars = s.vars)
    (hm : t.memory.size = s.memory.size) : AddsOnly names s t :=
  ⟨[], List.nil_subset _, .of_eq hv hm⟩

theorem AddsOnly.trans {names : List String} (s t u : State) :
    AddsOnly names s t → AddsOnly names t u → AddsOnly names s u := by
  rintro ⟨new, hnew, h⟩ ⟨more, hmore, k⟩
  exact ⟨new ++ more, List.append_subset.mpr ⟨hnew, hmore⟩, h.trans k⟩

def unseen (s : State) (x : String) : List String := if (s.vars.lookup x).isSome then [] else [x]

end State

namespace Exec

open State

theorem adds_addressOf (x : String) (s : State) :
    ∃ a t, addressOf x s = .ok a t ∧ t.vars.lookup x = some a ∧ s.Adds (s.unseen x) t := by
  cases hx : s.vars.lookup x with
  | some a =>
      refine ⟨a, s, addressOf_of_some hx, hx, ?_⟩
      rw [unseen, hx]
      exact .of_eq rfl rfl
  | none =>
      refine ⟨_, _, addressOf_of_none hx, ?_, ?_⟩
      · simp [List.lookup_append, hx]
      · rw [unseen, hx]
        refine ⟨rfl, by simp, by simp, ?_⟩
        intro y hy
        rw [List.mem_singleton.mp hy, hx]

variable {α β : Type}

def Steady (x : Exec α) : Prop :=
  ∀ s, (Result.state (x s)).vars = s.vars ∧ (Result.state (x s)).memory.size = s.memory.size

theorem Steady.pure (a : α) : Steady (pure a : Exec α) := fun _ => ⟨rfl, rfl⟩

theorem Steady.throw (h : Halt) : Steady (throw h : Exec α) := fun _ => ⟨rfl, rfl⟩

theorem Steady.lift (r : Except Fault α) : Steady (lift r : Exec α) := by
  cases r with
  | ok a => exact .pure a
  | error f => exact .throw (.fault f)

theorem Steady.modify {g : State → State}
    (hg : ∀ s, (g s).vars = s.vars ∧ (g s).memory.size = s.memory.size) :
    Steady (modify g : Exec Unit) := hg

theorem Steady.bind {x : Exec α} {f : α → Exec β} (hx : Steady x) (hf : ∀ a, Steady (f a)) :
    Steady (x >>= f) := by
  intro s
  have hs := hx s
  cases h : x s with
  | ok a t =>
      rw [h] at hs
      rw [bind_of_ok h]
      have ht := hf a t
      exact ⟨ht.1.trans hs.1, ht.2.trans hs.2⟩
  | error e t =>
      rw [h] at hs
      rw [bind_of_error h]
      exact hs

theorem Steady.get_bind {f : State → Exec β} (hf : ∀ s, Steady (f s)) : Steady (get >>= f) :=
  fun s => hf s s

theorem steady_check (access : Access) (a : Nat) : Steady (check access a) :=
  .get_bind fun _ => .lift _

theorem steady_writeWord (a : Nat) (v : Int) : Steady (writeWord a v) :=
  .bind (steady_check _ _) fun _ => .modify fun _ => ⟨rfl, Memory.size_setWord _ _ _⟩

theorem steady_writeByte (a : Nat) (v : Int) : Steady (writeByte a v) :=
  .bind (steady_check _ _) fun _ => .modify fun _ => ⟨rfl, Memory.size_setByte _ _ _⟩

end Exec

/-! ## All that a machine does -/

def Coupling.adding (names : List String) : Coupling :=
  .along (State.AddsOnly names) (fun _ => .of_eq rfl rfl) State.AddsOnly.trans

namespace Machine

variable (p : Program) (o : Options)

theorem covers_adding : (Coupling.adding (returnVariable :: p.vars)).Covers p o o := by
  refine Coupling.covers_along fun s t h => ?_
  cases h with
  | @allocate x hx hnew =>
      obtain ⟨_, _, haddr, -, hadds⟩ := Exec.adds_addressOf x s
      rw [Exec.addressOf_of_none hnew] at haddr
      injection haddr with _ ht
      subst ht
      rw [State.unseen, hnew] at hadds
      exact ⟨[x], List.cons_subset.mpr ⟨hx, List.nil_subset _⟩, hadds⟩
  | setWord a v => exact .of_eq rfl (Memory.size_setWord _ _ _)
  | setByte a b => exact .of_eq rfl (Memory.size_setByte _ _ _)
  | _ => exact .of_eq rfl rfl

end Machine

/-! ## The layout of memory -/

namespace State

/-- The variables besides the data labels are `names`, and their words stand after the data. -/
structure LaidOut (p : Program) (names : List String) (t : State) : Prop where
  vars : t.vars = p.dataLabels ++ Table.slots p.data.length names
  size : t.memory.size = p.data.length + 4 * names.length
  nodup : names.Nodup
  fresh : ∀ x ∈ names, p.dataLabels.lookup x = none

theorem laidOut_iff_adds (m : Machine) (canvas : Canvas) (generator : Generator)
    {names : List String} {t : State} :
    t.LaidOut m.program names ↔ (m.start canvas generator).Adds names t := by
  have hsize : (m.start canvas generator).memory.size = m.program.data.length := by
    simp [Machine.start, Memory.ofList, Memory.size]
  constructor
  · rintro ⟨hv, hs, hn, hf⟩
    exact ⟨by rw [hsize, hv]; rfl, by rw [hsize, hs], hn, hf⟩
  · rintro ⟨hv, hs, hn, hf⟩
    rw [hsize] at hv hs
    exact ⟨hv, hs, hn, hf⟩

namespace LaidOut

variable {p : Program} {names : List String} {t : State} (h : t.LaidOut p names)

include h

theorem extend {more : List String} {u : State} (k : t.Adds more u) :
    u.LaidOut p (names ++ more) := by
  rw [laidOut_iff_adds ⟨p, {}⟩ (.ofScreen (.standard .off)) (.scripted [] [])] at h ⊢
  exact h.trans k

theorem lookup_label {l : String} {a : Nat} (hl : p.dataLabels.lookup l = some a) :
    t.vars.lookup l = some a := by
  rw [h.vars, List.lookup_append, hl, Option.some_or]

theorem lookup_name {x : String} (hx : x ∈ names) :
    t.vars.lookup x = some (p.data.length + 4 * names.idxOf x) := by
  rw [h.vars, List.lookup_append, h.fresh x hx, Option.none_or, Table.lookup_slots, if_pos hx]

theorem name_at {i : Nat} {x : String} (hx : names[i]? = some x) :
    t.vars.lookup x = some (p.data.length + 4 * i) := by
  obtain ⟨hi, rfl⟩ := List.getElem?_eq_some_iff.mp hx
  rw [h.lookup_name (List.getElem_mem hi), h.nodup.idxOf_getElem]

theorem nodup_keys (hlabels : (p.dataLabels.map Prod.fst).Nodup) :
    (t.vars.map Prod.fst).Nodup := by
  rw [h.vars, List.map_append, Table.map_fst_slots]
  refine List.nodup_append.mpr ⟨hlabels, h.nodup, ?_⟩
  rintro x hx y hy rfl
  obtain ⟨q, hq, rfl⟩ := List.mem_map.mp hx
  have hnone := List.lookup_eq_none_iff.mp (h.fresh _ hy) q hq
  exact absurd hnone (by simp)

theorem after_data {x : String} (hx : x ∈ names) {a : Nat} (ha : t.vars.lookup x = some a) :
    p.data.length ≤ a ∧ a + 4 ≤ t.memory.size := by
  have hidx := List.idxOf_lt_length_of_mem hx
  have hlookup := h.lookup_name hx
  have hsize := h.size
  rw [ha] at hlookup
  cases hlookup
  omega

theorem apart {x y : String} (hx : x ∈ names) (hy : y ∈ names) (hxy : y ≠ x) {a b : Nat}
    (ha : t.vars.lookup x = some a) (hb : t.vars.lookup y = some b) :
    b + 4 ≤ a ∨ a + 4 ≤ b := by
  have hne : names.idxOf y ≠ names.idxOf x := fun heq => hxy ((List.idxOf_inj hy).mp heq)
  rw [h.lookup_name hx] at ha
  rw [h.lookup_name hy] at hb
  cases ha
  cases hb
  omega

theorem assign {x : String} (hx : x ∈ names) (v : Int) :
    ∃ u, Exec.writeVar x v t = .ok () u ∧ u.vars = t.vars ∧
      (∀ i < p.data.length, u.memory.byteAt i = t.memory.byteAt i) ∧
      ∀ y ∈ names, y ≠ x → ∃ n, Exec.readVar y t = .ok n t ∧ Exec.readVar y u = .ok n u := by
  have ha := h.lookup_name hx
  have hin := h.after_data hx ha
  generalize p.data.length + 4 * names.idxOf x = a at ha hin
  refine ⟨{ t with memory := t.memory.setWord a (Word.ofInt v) },
    Exec.writeVar_of_lookup ha hin.2, rfl, fun i hi => ?_, fun y hy hyx => ?_⟩
  · exact Memory.byteAt_setWord_of_apart _ _ (.inl (Nat.lt_of_lt_of_le hi hin.1))
  · have hb := h.lookup_name hy
    have hinb := h.after_data hy hb
    have hsame := Memory.wordAt_setWord_of_apart t.memory (Word.ofInt v)
      (h.apart hx hy hyx ha hb)
    refine ⟨_, Exec.readVar_of_lookup hb hinb.2, ?_⟩
    rw [← hsame]
    exact Exec.readVar_of_lookup hb (by simpa using hinb.2)

theorem overlap {x : String} (hx : x ∈ names) {a b : Nat} (hb : t.vars.lookup x = some b)
    (hab : b < a + 4) : p.data.length < a + 4 :=
  Nat.lt_of_le_of_lt (h.after_data hx hb).1 hab

theorem size_le {all : List String} (hall : names ⊆ returnVariable :: all) :
    t.memory.size ≤ p.data.length + 4 * (all.dedup.length + 1) := by
  have hsub : names ⊆ returnVariable :: all.dedup := by
    intro x hx
    simpa using hall hx
  have hlen := (List.subperm_of_subset h.nodup hsub).length_le
  rw [List.length_cons] at hlen
  have hsize := h.size
  omega

end LaidOut

end State

/-! ## Runs -/

theorem State.laidOut_of_leads {m : Machine} {canvas : Canvas} {generator : Generator} {t : State}
    (h : m.Leads (m.start canvas generator) t) :
    ∃ names, names ⊆ returnVariable :: m.program.vars ∧ t.LaidOut m.program names := by
  have hcovers := Machine.covers_adding m.program m.options
  obtain ⟨names, hnames, hadds⟩ := hcovers.of_leads (fun _ _ => .of_eq rfl rfl) h
  exact ⟨names, hnames, (laidOut_iff_adds m canvas generator).mpr hadds⟩

namespace Machine

/--
However a run goes, the data labels stay where they are, and the other
variables have their words after the data in the order of their first use.
Only a first use makes memory longer.
-/
theorem variables_laid_out {src : Source} {p : Program} (hload : Program.ofSource src = .ok p)
    (o : Options) (canvas : Canvas) (generator : Generator) {t : State}
    (ht : Leads ⟨p, o⟩ (start ⟨p, o⟩ canvas generator) t) :
    (∀ l a, p.dataLabels.lookup l = some a → t.vars.lookup l = some a) ∧
    ∃ names, t.LaidOut p names ∧ names ⊆ returnVariable :: Stmt.varsAll src.code ∧
      t.memory.size ≤ p.data.length + 4 * ((Stmt.varsAll src.code).dedup.length + 1) ∧
      (∀ i x, names[i]? = some x → t.vars.lookup x = some (p.data.length + 4 * i)) ∧
      (∀ x, ∃ a u, Exec.addressOf x t = .ok a u ∧
        u.LaidOut p (if (t.vars.lookup x).isSome then names else names ++ [x])) ∧
      (∀ a v, Exec.Steady (Exec.writeWord a v) ∧ Exec.Steady (Exec.writeByte a v)) ∧
      (∀ u, Leads ⟨p, o⟩ t u → ∃ more, u.LaidOut p (names ++ more)) ∧
      (∀ x ∈ names, ∀ a, t.vars.lookup x = some a →
        p.data.length ≤ a ∧ a + 4 ≤ t.memory.size ∧
        (∀ y ∈ names, y ≠ x → ∀ b, t.vars.lookup y = some b → b + 4 ≤ a ∨ a + 4 ≤ b) ∧
        (∀ v, ∃ u, Exec.writeVar x v t = .ok () u ∧ u.vars = t.vars ∧
          (∀ i < p.data.length, u.memory.byteAt i = t.memory.byteAt i) ∧
          ∀ y ∈ names, y ≠ x →
            ∃ n, Exec.readVar y t = .ok n t ∧ Exec.readVar y u = .ok n u) ∧
        ∀ l b, p.dataLabels.lookup l = some b → a < b + 4 → b < a + 4 →
          p.data.length < b + 4) := by
  obtain ⟨names, hnames, hlaid⟩ := State.laidOut_of_leads ht
  have hsource : names ⊆ returnVariable :: Stmt.varsAll src.code :=
    List.Subset.trans hnames (List.cons_subset_cons _ (Program.vars_subset hload))
  refine ⟨fun l a => hlaid.lookup_label, names, hlaid, hsource, hlaid.size_le hsource,
    fun i x => hlaid.name_at, fun x => ?_, fun a v => ?_, fun u hu => ?_, fun x hx a ha => ?_⟩
  · obtain ⟨a, u, haddr, -, hadds⟩ := Exec.adds_addressOf x t
    refine ⟨a, u, haddr, ?_⟩
    have hextend := hlaid.extend hadds
    unfold State.unseen at hextend
    split at hextend
    next hx => rwa [if_pos hx, List.append_nil] at *
    next hx => rwa [if_neg hx]
  · exact ⟨Exec.steady_writeWord a v, Exec.steady_writeByte a v⟩
  · obtain ⟨more, -, hadds⟩ := (covers_adding p o).of_leads (fun _ _ => .of_eq rfl rfl) hu
    exact ⟨more, hlaid.extend hadds⟩
  · have hin := hlaid.after_data hx ha
    refine ⟨hin.1, hin.2, fun y hy hyx b hb => hlaid.apart hx hy hyx ha hb,
      hlaid.assign hx, fun l b _ hab _ => hlaid.overlap hx ha hab⟩

/-- The word of the data label `last` reaches beyond the data, into that of `total`. -/
def tally : Source where
  data := [.label "first", .bytes (Word.bytes 7), .label "last", .bytes [33]]
  code := [
    .assign (.var "total") (.var "first") none,
    .function "add" ["n"] true
      [.assign (.var "total") (.bin (.known .add) (.var "total") (.var "n")) none] none,
    .assign (.word (.addr "last")) (.call "add" [.lit 5]) none]

def tally.program : Program where
  code := (Code.ofBlock tally.code).toArray
  data := [0, 0, 0, 7, 33]
  labels := [("add", 1)]
  dataLabels := [("first", 0), ("last", 4)]

theorem tally_laid_out : Program.ofSource tally = .ok tally.program ∧
    let m : Machine := ⟨tally.program, {}⟩
    ∀ canvas generator fuel, ∃ names,
      (m.run fuel (m.start canvas generator)).2.LaidOut tally.program names ∧
      (m.run fuel (m.start canvas generator)).2.memory.size ≤ 5 + 4 * (4 + 1) := by
  have hload : Program.ofSource tally = .ok tally.program := by rfl
  refine ⟨hload, fun canvas generator fuel => ?_⟩
  obtain ⟨-, names, hlaid, -, hsize, -⟩ :=
    variables_laid_out hload {} canvas generator (leads_run _ fuel _)
  exact ⟨names, hlaid, hsize⟩

end Machine

end BrownLang
