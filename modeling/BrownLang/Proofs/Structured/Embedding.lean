import BrownLang.Proofs.Loading.LabelTable
import BrownLang.Proofs.Structured.Interpreter

/-!
# The code of a statement in the code of a program

The code of a statement stands somewhere in the code of the program that it is
part of.  As labels are resolved by the table of the whole program, and the
table is right, a label in such a piece of code is found where it stands.
-/

namespace BrownLang

namespace Machine

variable {m : Machine}

def CodeAt (m : Machine) (ip : Nat) (code : Code) : Prop :=
  ∀ i line, code[i]? = some line → m.program.code[ip + i]? = some line

namespace CodeAt

variable {ip : Nat} {line : CodeLine} {code rest : Code}

theorem head (h : m.CodeAt ip (line :: code)) : m.program.code[ip]? = some line :=
  h 0 line rfl

theorem tail (h : m.CodeAt ip (line :: code)) : m.CodeAt (ip + 1) code := by
  intro i l hl
  have hat := h (i + 1) l (by simpa using hl)
  rwa [show ip + (i + 1) = ip + 1 + i by omega] at hat

theorem append_left (h : m.CodeAt ip (code ++ rest)) : m.CodeAt ip code := by
  intro i l hl
  have hlt : i < code.length := (List.getElem?_eq_some_iff.mp hl).1
  exact h i l (by rw [List.getElem?_append_left hlt, hl])

theorem append_right (h : m.CodeAt ip (code ++ rest)) : m.CodeAt (ip + code.length) rest := by
  intro i l hl
  have hat := h (code.length + i) l (by
    rw [List.getElem?_append_right (Nat.le_add_right _ _), Nat.add_sub_cancel_left, hl])
  rwa [← Nat.add_assoc] at hat

theorem of_toList (h : m.program.code.toList = code) : m.CodeAt 0 code := by
  intro i l hl
  rw [← h, Array.getElem?_toList] at hl
  rwa [Nat.zero_add]

theorem lookup_label {x : String} (hloaded : m.program.Loaded) (h : m.CodeAt ip (line :: code))
    (hx : line.instr.defines? = some x) : m.program.labels.lookup x = some ip :=
  (Program.lookup_labels_iff hloaded x ip).mpr ⟨line, h.head, hx⟩

end CodeAt

end Machine

/-! ## The functions in a structured program -/

namespace Stmt

def Hosts (code : Code) (d : Definition) : Prop :=
  ∃ before k l after,
    code = before ++ lower k (function d.name d.params d.preserve d.body l) ++ after

theorem Hosts.extend {code : Code} {d : Definition} (h : Hosts code d) (front back : Code) :
    Hosts (front ++ code ++ back) d := by
  obtain ⟨before, k, l, after, rfl⟩ := h
  exact ⟨front ++ before, k, l, after ++ back, by simp⟩

mutual

theorem hosts_lower {s : Stmt} {k : Nat} {d : Definition} (h : d ∈ s.functions) :
    Hosts (s.lower k) d := by
  match s with
  | assign .. | eval .. | goto .. | label .. => exact nomatch h
  | function f ps keep body l =>
      rw [functions, List.mem_singleton] at h
      subst h
      exact ⟨[], k, l, [], by simp⟩
  | ifThen c yes l =>
      have hyes := (hosts_lowerAll (k := k + 1) (b := yes) h).extend
        [⟨.jumpFalse c (madeLabel k), l⟩] [⟨.label (madeLabel k), l⟩]
      simpa [lower] using hyes
  | ifElse c yes no l =>
      rcases List.mem_append.mp h with h | h
      · rw [lower, List.append_assoc]
        exact (hosts_lowerAll (k := k + 1) (b := yes) h).extend [_] _
      · have hno := (hosts_lowerAll (k := k + 1 + labelCountAll yes + 1) (b := no) h).extend
          (⟨.jumpFalse c (madeLabel k), l⟩ :: lowerAll (k + 1) yes ++
            [⟨.goto (madeLabel (k + 1 + labelCountAll yes)), l⟩, ⟨.label (madeLabel k), l⟩])
          [⟨.label (madeLabel (k + 1 + labelCountAll yes)), l⟩]
        simpa [lower] using hno
  | whileLoop c body l =>
      have hbody := (hosts_lowerAll (k := k + 2) (b := body) h).extend
        [⟨.label (madeLabel k), l⟩, ⟨.jumpFalse c (madeLabel (k + 1)), l⟩]
        [⟨.goto (madeLabel k), l⟩, ⟨.label (madeLabel (k + 1)), l⟩]
      simpa [lower] using hbody
  | forLoop x a b body l =>
      have hbody := (hosts_lowerAll (k := k + 2) (b := body) h).extend
        [⟨.assign (.var x) a, l⟩, ⟨.label (madeLabel k), l⟩,
          ⟨.jumpFalse (.bin (.known .lt) (.var x) b) (madeLabel (k + 1)), l⟩]
        [⟨.assign (.var x) (.bin (.known .add) (.var x) (.lit 1)), l⟩,
          ⟨.goto (madeLabel k), l⟩, ⟨.label (madeLabel (k + 1)), l⟩]
      simpa [lower] using hbody

theorem hosts_lowerAll {b : List Stmt} {k : Nat} {d : Definition} (h : d ∈ functionsAll b) :
    Hosts (lowerAll k b) d := by
  match b with
  | [] => exact nomatch h
  | s :: rest =>
      rcases List.mem_append.mp h with h | h
      · have hs := (hosts_lower (k := k) h).extend [] (lowerAll (k + labelCount s) rest)
        simpa [lowerAll] using hs
      · have hrest := (hosts_lowerAll (k := k + labelCount s) h).extend (lower k s) []
        simpa [lowerAll] using hrest

end

/-! ## The names that a structured program defines -/

mutual

theorem functions_eq_nil {s : Stmt} (h : s.structured true) : s.functions = [] := by
  match s with
  | assign .. | eval .. | goto .. | label .. => rfl
  | function f ps keep body l => exact nomatch h
  | ifThen c yes l => exact functionsAll_eq_nil (b := yes) h
  | ifElse c yes no l =>
      obtain ⟨hyes, hno⟩ := Bool.and_eq_true_iff.mp h
      rw [functions, functionsAll_eq_nil hyes, functionsAll_eq_nil hno, List.append_nil]
  | whileLoop c body l => exact functionsAll_eq_nil (b := body) h
  | forLoop x a b body l => exact functionsAll_eq_nil (b := body) h

theorem functionsAll_eq_nil {b : List Stmt} (h : structuredAll true b) : functionsAll b = [] := by
  match b with
  | [] => rfl
  | s :: rest =>
      obtain ⟨hs, hrest⟩ := Bool.and_eq_true_iff.mp h
      rw [functionsAll, functions_eq_nil hs, functionsAll_eq_nil hrest, List.append_nil]

end

/-- A name is that of a function, or that of a label made with a number in a range. -/
def Accounted (fs : List Definition) (k count : Nat) (x : String) : Prop :=
  (∃ d ∈ fs, d.name = x) ∨ ∃ j, k ≤ j ∧ j < k + count ∧ x = madeLabel j

theorem Accounted.mono {fs fs' : List Definition} {k k' count count' : Nat} {x : String}
    (h : Accounted fs k count x) (hfs : ∀ d ∈ fs, d ∈ fs') (hk : k' ≤ k)
    (hcount : k + count ≤ k' + count') : Accounted fs' k' count' x := by
  rcases h with ⟨d, hd, hx⟩ | ⟨j, hj, hlt, hx⟩
  · exact .inl ⟨d, hfs d hd, hx⟩
  · exact .inr ⟨j, by omega, by omega, hx⟩

theorem Accounted.made {fs : List Definition} {k count j : Nat} {x : String}
    (hx : some (madeLabel j) = some x) (hj : k ≤ j) (hlt : j < k + count) :
    Accounted fs k count x :=
  .inr ⟨j, hj, hlt, (Option.some.inj hx).symm⟩

mutual

theorem accounted_lower {s : Stmt} {inFunction : Bool} {k : Nat} {line : CodeLine} {x : String}
    (hs : s.structured inFunction) (hline : line ∈ s.lower k)
    (hx : line.instr.defines? = some x) : Accounted s.functions k s.labelCount x := by
  match s with
  | assign .. | eval .. =>
      rw [lower, List.mem_singleton] at hline
      subst hline
      exact nomatch hx
  | goto .. | label .. => exact nomatch hs
  | function f ps keep body l =>
      obtain ⟨-, hbody⟩ := Bool.and_eq_true_iff.mp hs
      simp only [lower, List.cons_append, List.mem_cons, List.mem_append, List.not_mem_nil,
        or_false] at hline
      rcases hline with rfl | hline | rfl
      · exact .inl ⟨_, List.mem_singleton_self _, Option.some.inj hx⟩
      · refine (accounted_lowerAll hbody hline hx).mono ?_ (Nat.le_refl _) (Nat.le_refl _)
        rw [functionsAll_eq_nil hbody]
        exact fun d hd => nomatch hd
      · exact nomatch hx
  | ifThen c yes l =>
      simp only [lower, List.cons_append, List.mem_cons, List.mem_append, List.not_mem_nil,
        or_false] at hline
      rcases hline with rfl | hline | rfl
      · exact nomatch hx
      · exact (accounted_lowerAll (b := yes) hs hline hx).mono (fun d hd => hd) (by omega)
          (by simp only [labelCount]; omega)
      · exact .made hx (Nat.le_refl _) (by simp only [labelCount]; omega)
  | ifElse c yes no l =>
      obtain ⟨hyes, hno⟩ := Bool.and_eq_true_iff.mp hs
      simp only [lower, List.cons_append, List.append_assoc, List.mem_cons, List.mem_append,
        List.not_mem_nil, or_false] at hline
      rcases hline with rfl | hline | rfl | rfl | hline | rfl
      · exact nomatch hx
      · exact (accounted_lowerAll hyes hline hx).mono
          (fun d hd => List.mem_append.mpr (.inl hd)) (by omega)
          (by simp only [labelCount]; omega)
      · exact nomatch hx
      · exact .made hx (Nat.le_refl _) (by simp only [labelCount]; omega)
      · exact (accounted_lowerAll hno hline hx).mono
          (fun d hd => List.mem_append.mpr (.inr hd)) (by omega)
          (by simp only [labelCount]; omega)
      · exact .made hx (by omega) (by simp only [labelCount]; omega)
  | whileLoop c body l =>
      simp only [lower, List.cons_append, List.mem_cons, List.mem_append, List.not_mem_nil,
        or_false] at hline
      rcases hline with rfl | rfl | hline | rfl | rfl
      · exact .made hx (Nat.le_refl _) (by simp only [labelCount]; omega)
      · exact nomatch hx
      · exact (accounted_lowerAll (b := body) hs hline hx).mono (fun d hd => hd) (by omega)
          (by simp only [labelCount]; omega)
      · exact nomatch hx
      · exact .made hx (by omega) (by simp only [labelCount]; omega)
  | forLoop y a b body l =>
      simp only [lower, List.cons_append, List.mem_cons, List.mem_append, List.not_mem_nil,
        or_false] at hline
      rcases hline with rfl | rfl | rfl | hline | rfl | rfl | rfl
      · exact nomatch hx
      · exact .made hx (Nat.le_refl _) (by simp only [labelCount]; omega)
      · exact nomatch hx
      · exact (accounted_lowerAll (b := body) hs hline hx).mono (fun d hd => hd) (by omega)
          (by simp only [labelCount]; omega)
      · exact nomatch hx
      · exact nomatch hx
      · exact .made hx (by omega) (by simp only [labelCount]; omega)

theorem accounted_lowerAll {b : List Stmt} {inFunction : Bool} {k : Nat} {line : CodeLine}
    {x : String} (hb : structuredAll inFunction b) (hline : line ∈ lowerAll k b)
    (hx : line.instr.defines? = some x) : Accounted (functionsAll b) k (labelCountAll b) x := by
  match b with
  | [] => exact nomatch hline
  | s :: rest =>
      obtain ⟨hs, hrest⟩ := Bool.and_eq_true_iff.mp hb
      rcases List.mem_append.mp hline with hline | hline
      · exact (accounted_lower hs hline hx).mono
          (fun d hd => List.mem_append.mpr (.inl hd)) (Nat.le_refl _)
          (by simp only [labelCountAll]; omega)
      · exact (accounted_lowerAll hrest hline hx).mono
          (fun d hd => List.mem_append.mpr (.inr hd)) (by omega)
          (by simp only [labelCountAll]; omega)

end

mutual

theorem made_lower {s : Stmt} {k j : Nat} (hj : k ≤ j) (hlt : j < k + s.labelCount) :
    .label (madeLabel j) ∈ (s.lower k).instrs := by
  match s with
  | assign .. | eval .. | goto .. | label .. =>
      rw [labelCount] at hlt
      omega
  | function f ps keep body l =>
      have hbody := made_lowerAll (b := body) hj hlt
      simp [lower, Code.instrs] at hbody ⊢
      exact hbody
  | ifThen c yes l =>
      rw [labelCount] at hlt
      simp only [lower, Code.instrs, List.map_append, List.map_cons, List.mem_append, List.mem_cons]
      by_cases hk : j = k
      · subst hk
        exact .inr (.inl rfl)
      · exact .inl (.inr (made_lowerAll (b := yes) (by omega) (by omega)))
  | ifElse c yes no l =>
      rw [labelCount] at hlt
      simp only [lower, Code.instrs, List.map_append, List.map_cons, List.mem_append, List.mem_cons]
      by_cases hk : j = k
      · subst hk
        exact .inl (.inr (.inr (.inl rfl)))
      by_cases hexit : j = k + 1 + labelCountAll yes
      · subst hexit
        exact .inr (.inl rfl)
      by_cases hyes : j < k + 1 + labelCountAll yes
      · exact .inl (.inl (.inr (made_lowerAll (b := yes) (by omega) hyes)))
      · exact .inl (.inr (.inr (.inr (made_lowerAll (b := no) (by omega) (by omega)))))
  | whileLoop c body l =>
      rw [labelCount] at hlt
      simp only [lower, Code.instrs, List.map_append, List.map_cons, List.mem_append, List.mem_cons]
      by_cases hk : j = k
      · subst hk
        exact .inl (.inl rfl)
      by_cases hexit : j = k + 1
      · subst hexit
        exact .inr (.inr (.inl rfl))
      · exact .inl (.inr (.inr (made_lowerAll (b := body) (by omega) (by omega))))
  | forLoop x a b body l =>
      rw [labelCount] at hlt
      simp only [lower, Code.instrs, List.map_append, List.map_cons, List.mem_append, List.mem_cons]
      by_cases hk : j = k
      · subst hk
        exact .inl (.inr (.inl rfl))
      by_cases hexit : j = k + 1
      · subst hexit
        exact .inr (.inr (.inr (.inl rfl)))
      · exact .inl (.inr (.inr (.inr (made_lowerAll (b := body) (by omega) (by omega)))))

theorem made_lowerAll {b : List Stmt} {k j : Nat} (hj : k ≤ j)
    (hlt : j < k + labelCountAll b) : .label (madeLabel j) ∈ (lowerAll k b).instrs := by
  match b with
  | [] =>
      rw [labelCountAll] at hlt
      omega
  | s :: rest =>
      rw [labelCountAll] at hlt
      simp only [lowerAll, Code.instrs, List.map_append, List.mem_append]
      by_cases hs : j < k + s.labelCount
      · exact .inl (made_lower hj hs)
      · exact .inr (made_lowerAll (b := rest) (by omega) (by omega))

end

end Stmt

/-! ## Calls in a structured program -/

namespace Machine

variable {m : Machine} {b : Block}

/-- The function defined by `d` has its head at `entry`; its labels are numbered from `k` on. -/
structure FunctionAt (m : Machine) (d : Definition) (entry k : Nat) : Prop where
  head : m.instrAt entry = some (.funEntry d.name d.params d.preserve)
  body : m.CodeAt (entry + 1) (Stmt.lowerAll k d.body)
  ending : m.instrAt (entry + 1 + (Stmt.lowerAll k d.body).length) = some .funReturn

theorem function_found (hloaded : m.program.Loaded)
    (hcode : m.program.code.toList = Code.ofBlock b) {d : Definition}
    (hd : d ∈ Stmt.functionsAll b) :
    ∃ entry k, m.program.labels.lookup d.name = some entry ∧ m.FunctionAt d entry k := by
  obtain ⟨before, k, l, after, hhost⟩ := Stmt.hosts_lowerAll (k := 0) hd
  have hall : m.CodeAt 0 (before ++ Stmt.lower k (.function d.name d.params d.preserve d.body l) ++
      after) := .of_toList (hcode.trans hhost)
  have hfun := hall.append_left.append_right
  rw [Stmt.lower, Nat.zero_add] at hfun
  have hhead := hfun.head
  have hbody := hfun.tail.append_left
  have hreturn := hfun.tail.append_right.head
  refine ⟨before.length, k, hfun.lookup_label hloaded rfl, ?_, hbody, ?_⟩
  · rw [instrAt, hhead]
    rfl
  · rw [instrAt, hreturn]
    rfl

theorem no_function_found (hloaded : m.program.Loaded)
    (hcode : m.program.code.toList = Code.ofBlock b) (hb : Stmt.structuredAll false b)
    {x : String} (hx : ∀ d ∈ Stmt.functionsAll b, d.name ≠ x) :
    if b.reserves x then
      ∃ i y, m.program.labels.lookup x = some i ∧ m.instrAt i = some (.label y)
    else m.program.labels.lookup x = none := by
  have hget (i : Nat) : m.program.code[i]? = (Code.ofBlock b)[i]? := by
    rw [← hcode, Array.getElem?_toList]
  split
  next hres =>
    obtain ⟨j, hj, hxj⟩ := List.any_eq_true.mp hres
    rw [List.mem_range] at hj
    have hxj : x = madeLabel j := of_decide_eq_true hxj
    have hmade := Stmt.made_lowerAll (b := b) (k := 0) (Nat.zero_le j) (by omega)
    obtain ⟨line, hline, hinstr⟩ := List.mem_map.mp hmade
    obtain ⟨i, hi⟩ := List.getElem?_of_mem hline
    have hcodei : m.program.code[i]? = some line := (hget i).trans hi
    refine ⟨i, madeLabel j, (Program.lookup_labels_iff hloaded x i).mpr ⟨line, hcodei, ?_⟩, ?_⟩
    · rw [hinstr, hxj]
      rfl
    · rw [instrAt, hcodei, ← hinstr]
      rfl
  next hres =>
    cases hlookup : m.program.labels.lookup x with
    | none => rfl
    | some i =>
        obtain ⟨line, hline, hdef⟩ := (Program.lookup_labels_iff hloaded x i).mp hlookup
        rw [hget] at hline
        rcases Stmt.accounted_lowerAll hb (List.mem_of_getElem? hline) hdef with
          ⟨d, hd, hname⟩ | ⟨j, -, hj, hxj⟩
        · exact absurd hname (hx d hd)
        · refine absurd (List.any_eq_true.mpr ⟨j, List.mem_range.mpr (by omega), ?_⟩) hres
          exact decide_eq_true hxj

end Machine

end BrownLang
