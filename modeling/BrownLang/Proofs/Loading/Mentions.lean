import BrownLang.Proofs.Execution.Evaluation
import BrownLang.Proofs.Loading.LabelTable

/-!
# What a program mentions

The variables, the operators and the jump targets that stand in some code.
Lowering mentions no variable that the source does not mention, and no operator
but those of the source and the two that count and compare in a loop.  A jump
goes to a label that the code defines, or to one that a `goto` of the source
names.
-/

namespace BrownLang

namespace Expr

mutual

def vars : Expr → List String
  | lit _ => []
  | var x | addr x => [x]
  | word a | byte a => vars a
  | bin _ l r => vars l ++ vars r
  | call _ args => varsAll args

def varsAll : List Expr → List String
  | [] => []
  | e :: rest => vars e ++ varsAll rest

end

mutual

def operators : Expr → List BinOp
  | lit _ | var _ | addr _ => []
  | word a | byte a => operators a
  | bin op l r => op :: operators l ++ operators r
  | call _ args => operatorsAll args

def operatorsAll : List Expr → List BinOp
  | [] => []
  | e :: rest => operators e ++ operatorsAll rest

end

end Expr

/-! ## Code -/

namespace Instr

def binds : Instr → List String
  | assign (.var x) _ => [x]
  | funEntry _ params _ => params
  | _ => []

def vars (i : Instr) : List String := i.binds ++ Expr.varsAll i.operands

def operators (i : Instr) : List BinOp := Expr.operatorsAll i.operands

def target? : Instr → Option String
  | goto l | jumpFalse _ l => some l
  | _ => none

end Instr

namespace Program

variable (p : Program)

def vars : List String := p.code.toList.flatMap fun line => line.instr.vars

def operators : List BinOp := p.code.toList.flatMap fun line => line.instr.operators

def targets : List String := p.code.toList.filterMap fun line => line.instr.target?

/-- The program has all variables and operators of the expression. -/
structure Mentions (e : Expr) : Prop where
  vars : e.vars ⊆ p.vars
  operators : e.operators ⊆ p.operators

structure MentionsAll (es : List Expr) : Prop where
  vars : Expr.varsAll es ⊆ p.vars
  operators : Expr.operatorsAll es ⊆ p.operators

variable {p}

theorem Mentions.word {a : Expr} (h : p.Mentions (.word a)) : p.Mentions a :=
  ⟨h.vars, h.operators⟩

theorem Mentions.byte {a : Expr} (h : p.Mentions (.byte a)) : p.Mentions a :=
  ⟨h.vars, h.operators⟩

theorem Mentions.left {op : BinOp} {l r : Expr} (h : p.Mentions (.bin op l r)) :
    p.Mentions l where
  vars := (List.append_subset.mp h.vars).1
  operators := (List.append_subset.mp (List.cons_subset.mp h.operators).2).1

theorem Mentions.right {op : BinOp} {l r : Expr} (h : p.Mentions (.bin op l r)) :
    p.Mentions r where
  vars := (List.append_subset.mp h.vars).2
  operators := (List.append_subset.mp (List.cons_subset.mp h.operators).2).2

theorem Mentions.args {f : String} {es : List Expr} (h : p.Mentions (.call f es)) :
    p.MentionsAll es :=
  ⟨h.vars, h.operators⟩

theorem MentionsAll.head {e : Expr} {es : List Expr} (h : p.MentionsAll (e :: es)) :
    p.Mentions e :=
  ⟨(List.append_subset.mp h.vars).1, (List.append_subset.mp h.operators).1⟩

theorem MentionsAll.tail {e : Expr} {es : List Expr} (h : p.MentionsAll (e :: es)) :
    p.MentionsAll es :=
  ⟨(List.append_subset.mp h.vars).2, (List.append_subset.mp h.operators).2⟩

variable {i : Nat} {line : CodeLine}

theorem mem_vars (hline : p.code[i]? = some line) {x : String}
    (hx : x ∈ line.instr.vars) : x ∈ p.vars := by
  refine List.mem_flatMap.mpr ⟨line, ?_, hx⟩
  exact Array.mem_toList_iff.mpr (Array.mem_of_getElem? hline)

theorem mem_operators (hline : p.code[i]? = some line) {op : BinOp}
    (hop : op ∈ line.instr.operators) : op ∈ p.operators := by
  refine List.mem_flatMap.mpr ⟨line, ?_, hop⟩
  exact Array.mem_toList_iff.mpr (Array.mem_of_getElem? hline)

theorem mem_targets (hline : p.code[i]? = some line) {l : String}
    (hl : line.instr.target? = some l) : l ∈ p.targets := by
  refine List.mem_filterMap.mpr ⟨line, ?_, hl⟩
  exact Array.mem_toList_iff.mpr (Array.mem_of_getElem? hline)

theorem mentions_operands (hline : p.code[i]? = some line) :
    p.MentionsAll line.instr.operands :=
  ⟨fun _ hx => mem_vars hline (List.mem_append_right _ hx),
    fun _ hop => mem_operators hline hop⟩

theorem mem_of_params {f : String} {params : List String} {preserve : Bool}
    (hline : p.code[i]? = some line) (hhead : line.instr = .funEntry f params preserve) :
    params ⊆ p.vars := by
  intro x hx
  apply mem_vars hline
  rw [hhead]
  exact List.mem_append_left _ hx

end Program

/-! ## Statements -/

def Target.vars : Target → List String
  | var x => [x]
  | word a | byte a => a.vars

def Target.operators : Target → List BinOp
  | var _ => []
  | word a | byte a => a.operators

namespace Stmt

mutual

def vars : Stmt → List String
  | assign t e _ => t.vars ++ e.vars
  | forLoop x a b body _ => x :: a.vars ++ b.vars ++ varsAll body
  | whileLoop c body _ | ifThen c body _ => c.vars ++ varsAll body
  | ifElse c yes no _ => c.vars ++ varsAll yes ++ varsAll no
  | goto .. | label .. => []
  | function _ ps _ body _ => ps ++ varsAll body
  | eval e _ => e.vars

def varsAll : List Stmt → List String
  | [] => []
  | s :: rest => vars s ++ varsAll rest

end

mutual

def operators : Stmt → List BinOp
  | assign t e _ => t.operators ++ e.operators
  | forLoop _ a b body _ => a.operators ++ b.operators ++ operatorsAll body
  | whileLoop c body _ | ifThen c body _ => c.operators ++ operatorsAll body
  | ifElse c yes no _ => c.operators ++ operatorsAll yes ++ operatorsAll no
  | goto .. | label .. => []
  | function _ _ _ body _ => operatorsAll body
  | eval e _ => e.operators

def operatorsAll : List Stmt → List BinOp
  | [] => []
  | s :: rest => operators s ++ operatorsAll rest

end

mutual

def gotos : Stmt → List String
  | goto l _ => [l]
  | forLoop _ _ _ body _ | whileLoop _ body _ | ifThen _ body _ | function _ _ _ body _ =>
    gotosAll body
  | ifElse _ yes no _ => gotosAll yes ++ gotosAll no
  | assign .. | label .. | eval .. => []

def gotosAll : List Stmt → List String
  | [] => []
  | s :: rest => gotos s ++ gotosAll rest

end

end Stmt

/-! ## Lowering -/

def loopOperators : List BinOp := [.known .lt, .known .add]

def Code.defined (code : Code) : List String := code.filterMap fun line => line.instr.defines?

/-- The instruction mentions no other variables, operators and labels. -/
structure Instr.Within (vars : List String) (operators : List BinOp) (labels : List String)
    (i : Instr) : Prop where
  vars : i.vars ⊆ vars
  operators : i.operators ⊆ operators ++ loopOperators
  target : ∀ l, i.target? = some l → l ∈ labels

theorem Instr.Within.mono {vs vs' : List String} {os os' : List BinOp} {ls ls' : List String}
    {i : Instr} (h : i.Within vs os ls) (hv : vs ⊆ vs') (ho : os ⊆ os') (hl : ls ⊆ ls') :
    i.Within vs' os' ls' where
  vars := List.Subset.trans h.vars hv
  operators := List.Subset.trans h.operators (List.append_subset.mpr
    ⟨List.subset_append_of_subset_left _ ho, List.subset_append_right _ _⟩)
  target l hi := hl (h.target l hi)

namespace Stmt

section

variable {vs : List String} {os : List BinOp} {ls : List String}

theorem within_label (l : String) : (Instr.label l).Within vs os ls where
  vars := by simp [Instr.vars, Instr.binds, Instr.operands, Expr.varsAll]
  operators := by simp [Instr.operators, Instr.operands, Expr.operatorsAll]
  target := by simp [Instr.target?]

theorem within_funReturn : Instr.funReturn.Within vs os ls where
  vars := by simp [Instr.vars, Instr.binds, Instr.operands, Expr.varsAll]
  operators := by simp [Instr.operators, Instr.operands, Expr.operatorsAll]
  target := by simp [Instr.target?]

theorem within_funEntry {f : String} {ps : List String} {keep : Bool} (h : ps ⊆ vs) :
    (Instr.funEntry f ps keep).Within vs os ls where
  vars := by
    simpa [Instr.vars, Instr.binds, Instr.operands, Expr.varsAll] using h
  operators := by simp [Instr.operators, Instr.operands, Expr.operatorsAll]
  target := by simp [Instr.target?]

theorem within_goto {l : String} (h : l ∈ ls) : (Instr.goto l).Within vs os ls where
  vars := by simp [Instr.vars, Instr.binds, Instr.operands, Expr.varsAll]
  operators := by simp [Instr.operators, Instr.operands, Expr.operatorsAll]
  target := by simpa [Instr.target?] using h

theorem within_jumpFalse {c : Expr} {l : String} (hv : c.vars ⊆ vs)
    (ho : c.operators ⊆ os ++ loopOperators) (hl : l ∈ ls) :
    (Instr.jumpFalse c l).Within vs os ls where
  vars := by
    simpa [Instr.vars, Instr.binds, Instr.operands, Expr.varsAll] using hv
  operators := by simpa [Instr.operators, Instr.operands, Expr.operatorsAll] using ho
  target := by simpa [Instr.target?] using hl

theorem within_eval {e : Expr} (hv : e.vars ⊆ vs) (ho : e.operators ⊆ os) :
    (Instr.eval e).Within vs os ls where
  vars := by
    simpa [Instr.vars, Instr.binds, Instr.operands, Expr.varsAll] using hv
  operators := by
    simpa [Instr.operators, Instr.operands, Expr.operatorsAll] using
      List.subset_append_of_subset_left _ ho
  target := by simp [Instr.target?]

theorem within_assign {t : Target} {e : Expr} (hv : t.vars ++ e.vars ⊆ vs)
    (ho : t.operators ++ e.operators ⊆ os ++ loopOperators) :
    (Instr.assign t e).Within vs os ls where
  vars := by
    rw [List.append_subset] at hv
    cases t <;>
      simp_all [Instr.vars, Instr.binds, Instr.operands, Expr.varsAll,
        Target.vars]
  operators := by
    rw [List.append_subset] at ho
    cases t <;>
      simp_all [Instr.operators, Instr.operands, Expr.operatorsAll, Target.operators]
  target := by simp [Instr.target?]

end

theorem mem_labels {code part : Code} {gotos : List String} (hpart : part ⊆ code) {l : String}
    (loc : Option Location) (hl : ⟨.label l, loc⟩ ∈ part) : l ∈ gotos ++ code.defined :=
  List.mem_append_right _ (List.mem_filterMap.mpr ⟨_, hpart hl, rfl⟩)

mutual

theorem within_lower (k : Nat) (s : Stmt) {code : Code} (hcode : s.lower k ⊆ code)
    {line : CodeLine} (h : line ∈ s.lower k) :
    line.instr.Within s.vars s.operators (s.gotos ++ code.defined) := by
  match s with
  | assign t e l =>
      simp only [lower, List.mem_singleton] at h
      subst h
      exact within_assign (List.Subset.refl _) (List.subset_append_left _ _)
  | goto x l =>
      simp only [lower, List.mem_singleton] at h
      subst h
      exact within_goto (by simp [gotos])
  | label x l =>
      simp only [lower, List.mem_singleton] at h
      subst h
      exact within_label x
  | eval e l =>
      simp only [lower, List.mem_singleton] at h
      subst h
      exact within_eval (List.Subset.refl _) (List.Subset.refl _)
  | ifThen c yes l =>
      have hyes : lowerAll (k + 1) yes ⊆ code := by
        intro a ha
        exact hcode (by simp [lower, ha])
      simp only [lower, List.cons_append, List.mem_cons, List.mem_append, List.not_mem_nil,
        or_false] at h
      rcases h with rfl | h | rfl
      · exact within_jumpFalse (by simp [vars]) (by simp [operators])
          (mem_labels hcode l (by simp [lower]))
      · exact (within_lowerAll _ yes hyes h).mono (by simp [vars]) (by simp [operators])
          (by simp [gotos])
      · exact within_label _
  | ifElse c yes no l =>
      have hyes : lowerAll (k + 1) yes ⊆ code := by
        intro a ha
        exact hcode (by simp [lower, ha])
      have hno : lowerAll (k + 1 + labelCountAll yes + 1) no ⊆ code := by
        intro a ha
        exact hcode (by simp [lower, ha])
      simp only [lower, List.cons_append, List.mem_cons, List.mem_append, List.not_mem_nil,
        or_false] at h
      rcases h with rfl | (h | rfl | rfl | h) | rfl
      · exact within_jumpFalse (by simp [vars]) (by simp [operators])
          (mem_labels hcode l (by simp [lower]))
      · exact (within_lowerAll _ yes hyes h).mono (by simp [vars]) (by simp [operators])
          (by simp [gotos])
      · exact within_goto (mem_labels hcode l (by simp [lower]))
      · exact within_label _
      · exact (within_lowerAll _ no hno h).mono (by simp [vars]) (by simp [operators])
          (by simp [gotos])
      · exact within_label _
  | whileLoop c body l =>
      have hbody : lowerAll (k + 2) body ⊆ code := by
        intro a ha
        exact hcode (by simp [lower, ha])
      simp only [lower, List.cons_append, List.mem_cons, List.mem_append, List.not_mem_nil,
        or_false] at h
      rcases h with rfl | rfl | h | rfl | rfl
      · exact within_label _
      · exact within_jumpFalse (by simp [vars]) (by simp [operators])
          (mem_labels hcode l (by simp [lower]))
      · exact (within_lowerAll _ body hbody h).mono (by simp [vars]) (by simp [operators])
          (by simp [gotos])
      · exact within_goto (mem_labels hcode l (by simp [lower]))
      · exact within_label _
  | forLoop x a b body l =>
      have hbody : lowerAll (k + 2) body ⊆ code := by
        intro a ha
        exact hcode (by simp [lower, ha])
      simp only [lower, List.cons_append, List.mem_cons, List.mem_append, List.not_mem_nil,
        or_false] at h
      rcases h with rfl | rfl | rfl | h | rfl | rfl | rfl
      · exact within_assign (by simp [vars, Target.vars])
          (by simp [operators, Target.operators])
      · exact within_label _
      · have hbound : b.vars ⊆ vars (.forLoop x a b body l) :=
          fun y hy => by simp [vars, hy]
        exact within_jumpFalse (List.cons_subset.mpr ⟨by simp [vars], hbound⟩)
          (by simp [operators, Expr.operators, loopOperators])
          (mem_labels hcode l (by simp [lower]))
      · exact (within_lowerAll _ body hbody h).mono (fun y hy => by simp [vars, hy])
          (by simp [operators]) (by simp [gotos])
      · exact within_assign (by simp [vars, Target.vars, Expr.vars])
          (by simp [Target.operators, Expr.operators, loopOperators])
      · exact within_goto (mem_labels hcode l (by simp [lower]))
      · exact within_label _
  | function f ps keep body l =>
      have hbody : lowerAll k body ⊆ code := by
        intro a ha
        exact hcode (by simp [lower, ha])
      simp only [lower, List.cons_append, List.mem_cons, List.mem_append, List.not_mem_nil,
        or_false] at h
      rcases h with rfl | h | rfl
      · exact within_funEntry (by simp [vars])
      · exact (within_lowerAll _ body hbody h).mono (by simp [vars]) (by simp [operators])
          (by simp [gotos])
      · exact within_funReturn

theorem within_lowerAll (k : Nat) (b : List Stmt) {code : Code} (hcode : lowerAll k b ⊆ code)
    {line : CodeLine} (h : line ∈ lowerAll k b) :
    line.instr.Within (varsAll b) (operatorsAll b) (gotosAll b ++ code.defined) := by
  match b with
  | [] => simp [lowerAll] at h
  | s :: rest =>
      rw [lowerAll, List.append_subset] at hcode
      rcases List.mem_append.mp h with h | h
      · exact (within_lower k s hcode.1 h).mono (by simp [varsAll]) (by simp [operatorsAll])
          (by simp [gotosAll])
      · exact (within_lowerAll _ rest hcode.2 h).mono (by simp [varsAll])
          (by simp [operatorsAll]) (by simp [gotosAll])

end

end Stmt

/-! ## Programs -/

namespace Program

variable {s : Source} {p : Program} (h : ofSource s = .ok p)

include h

theorem within_of_ofSource {line : CodeLine} (hline : line ∈ p.code.toList) :
    line.instr.Within (Stmt.varsAll s.code) (Stmt.operatorsAll s.code)
      (Stmt.gotosAll s.code ++ Code.defined p.code.toList) := by
  obtain ⟨-, -, -, hcode, -, -⟩ := ofSource_ok h
  rw [hcode] at hline ⊢
  exact Stmt.within_lowerAll 0 s.code (List.Subset.refl _) hline

theorem vars_subset : p.vars ⊆ Stmt.varsAll s.code := by
  intro x hx
  obtain ⟨line, hline, hx⟩ := List.mem_flatMap.mp hx
  exact (within_of_ofSource h hline).vars hx

theorem operators_subset : p.operators ⊆ Stmt.operatorsAll s.code ++ loopOperators := by
  intro op hop
  obtain ⟨line, hline, hop⟩ := List.mem_flatMap.mp hop
  exact (within_of_ofSource h hline).operators hop

/-- A jump that leads nowhere is one of the source. -/
theorem mem_gotos_of_lookup_eq_none {l : String} (hl : l ∈ p.targets)
    (hnone : p.labels.lookup l = none) : l ∈ Stmt.gotosAll s.code := by
  obtain ⟨line, hline, hl⟩ := List.mem_filterMap.mp hl
  rcases List.mem_append.mp ((within_of_ofSource h hline).target l hl) with hgoto | hdef
  · exact hgoto
  · obtain ⟨line', hline', hdef⟩ := List.mem_filterMap.mp hdef
    obtain ⟨i, hi⟩ := Array.mem_iff_getElem?.mp (Array.mem_toList_iff.mp hline')
    have hsome := (p.lookup_labels_iff (loaded_of_ofSource h) l i).mpr ⟨line', hi, hdef⟩
    exact nomatch hnone.symm.trans hsome

end Program

end BrownLang
