import BrownLang.Proofs.Loading.Redefinition

/-!
# What lowering forgets

Lowering writes a counting loop as an assignment and a conditional loop that
ends with another assignment.  This is all that it forgets: from the code the
statements can be told but for that, as the numbers of made labels say where
a block ends and which kind of statement it belongs to.
-/

namespace BrownLang

namespace Stmt

/-! ## Counting loops as conditional loops -/

mutual

/-- The statement with conditional loops for counting loops, at every depth. -/
def desugar : Stmt → List Stmt
  | forLoop x a b body l =>
    [assign (.var x) a l,
      whileLoop (.bin (.known .lt) (.var x) b)
        (desugarAll body ++ [assign (.var x) (.bin (.known .add) (.var x) (.lit 1)) l]) l]
  | whileLoop c body l => [whileLoop c (desugarAll body) l]
  | ifThen c yes l => [ifThen c (desugarAll yes) l]
  | ifElse c yes no l => [ifElse c (desugarAll yes) (desugarAll no) l]
  | function f ps keep body l => [function f ps keep (desugarAll body) l]
  | assign t e l => [assign t e l]
  | goto x l => [goto x l]
  | label x l => [label x l]
  | eval e l => [eval e l]

def desugarAll : List Stmt → List Stmt
  | [] => []
  | s :: rest => desugar s ++ desugarAll rest

end

@[simp] theorem labelCountAll_append (a b : List Stmt) :
    labelCountAll (a ++ b) = labelCountAll a + labelCountAll b := by
  induction a with
  | nil => simp [labelCountAll]
  | cons s rest ih => simp [labelCountAll, ih, Nat.add_assoc]

@[simp] theorem lowerAll_append (k : Nat) (a b : List Stmt) :
    lowerAll k (a ++ b) = lowerAll k a ++ lowerAll (k + labelCountAll a) b := by
  induction a generalizing k with
  | nil => simp [lowerAll, labelCountAll]
  | cons s rest ih => simp [lowerAll, labelCountAll, ih, Nat.add_assoc]

mutual

@[simp] theorem labelCount_desugar (s : Stmt) : labelCountAll s.desugar = s.labelCount := by
  match s with
  | assign .. | goto .. | label .. | eval .. => simp [desugar, labelCountAll]
  | forLoop x a b body l =>
      simp [desugar, labelCountAll, labelCount, labelCount_desugarAll body]
  | whileLoop c body l | ifThen c body l | function f ps keep body l =>
      simp [desugar, labelCountAll, labelCount, labelCount_desugarAll body]
  | ifElse c yes no l =>
      simp [desugar, labelCountAll, labelCount, labelCount_desugarAll yes,
        labelCount_desugarAll no]

@[simp] theorem labelCount_desugarAll (b : List Stmt) :
    labelCountAll (desugarAll b) = labelCountAll b := by
  match b with
  | [] => rfl
  | s :: rest =>
      simp [desugarAll, labelCountAll, labelCount_desugar s, labelCount_desugarAll rest]

end

mutual

theorem lower_desugar (k : Nat) (s : Stmt) : lowerAll k s.desugar = s.lower k := by
  match s with
  | assign .. | goto .. | label .. | eval .. => simp [desugar, lowerAll]
  | forLoop x a b body l =>
      simp [desugar, lowerAll, lower, labelCount, lower_desugarAll (k + 2) body]
  | whileLoop c body l => simp [desugar, lowerAll, lower, lower_desugarAll (k + 2) body]
  | ifThen c yes l => simp [desugar, lowerAll, lower, lower_desugarAll (k + 1) yes]
  | function f ps keep body l => simp [desugar, lowerAll, lower, lower_desugarAll k body]
  | ifElse c yes no l =>
      simp [desugar, lowerAll, lower, lower_desugarAll (k + 1) yes, lower_desugarAll _ no]

theorem lower_desugarAll (k : Nat) (b : List Stmt) : lowerAll k (desugarAll b) = lowerAll k b := by
  match b with
  | [] => rfl
  | s :: rest =>
      simp [desugarAll, lowerAll, lower_desugar k s, lower_desugarAll _ rest]

end

/-! ## Statements without counting loops and dollar signs -/

mutual

/-- No loop of the statement counts, and no label or `goto` of it looks like a made one. -/
def Plain : Stmt → Prop
  | goto x _ | label x _ => '$' ∉ x.toList
  | forLoop .. => False
  | whileLoop _ body _ | ifThen _ body _ | function _ _ _ body _ => PlainAll body
  | ifElse _ yes no _ => PlainAll yes ∧ PlainAll no
  | assign .. | eval .. => True

def PlainAll : List Stmt → Prop
  | [] => True
  | s :: rest => Plain s ∧ PlainAll rest

end

theorem plainAll_append {a b : List Stmt} : PlainAll (a ++ b) ↔ PlainAll a ∧ PlainAll b := by
  induction a with
  | nil => simp [PlainAll]
  | cons s rest ih => simp [PlainAll, ih, and_assoc]

mutual

theorem plainAll_desugar {s : Stmt} (h : ∀ x ∈ s.names ++ s.gotos, '$' ∉ x.toList) :
    PlainAll s.desugar := by
  match s with
  | assign .. | eval .. => simp [desugar, PlainAll, Plain]
  | goto x _ | label x _ =>
      have hx := h x (by simp [names, gotos])
      simpa [desugar, PlainAll, Plain] using hx
  | whileLoop c body _ | ifThen c body _ | forLoop _ _ _ body _ =>
      have hbody := plainAll_desugarAll (b := body) h
      simpa [desugar, PlainAll, Plain, plainAll_append] using hbody
  | function f ps keep body _ =>
      have hbody := plainAll_desugarAll (b := body) fun x hx => h x (List.mem_cons_of_mem f hx)
      simpa [desugar, PlainAll, Plain] using hbody
  | ifElse c yes no _ =>
      have hyes := plainAll_desugarAll (b := yes) fun x hx => h x (by grind [names, gotos])
      have hno := plainAll_desugarAll (b := no) fun x hx => h x (by grind [names, gotos])
      simp [desugar, PlainAll, Plain, hyes, hno]

theorem plainAll_desugarAll {b : List Stmt}
    (h : ∀ x ∈ namesAll b ++ gotosAll b, '$' ∉ x.toList) : PlainAll (desugarAll b) := by
  match b with
  | [] => simp [desugarAll, PlainAll]
  | s :: rest =>
      rw [desugarAll, plainAll_append]
      constructor
      · exact plainAll_desugar fun x hx => h x (by grind [namesAll, gotosAll])
      · exact plainAll_desugarAll fun x hx => h x (by grind [namesAll, gotosAll])

end

/-! ## Code and labels without locations -/

end Stmt

namespace Code

@[simp] theorem instrs_nil : instrs [] = [] := rfl

@[simp] theorem instrs_cons (line : CodeLine) (code : Code) :
    instrs (line :: code) = line.instr :: instrs code := rfl

@[simp] theorem instrs_append (code rest : Code) :
    instrs (code ++ rest) = instrs code ++ instrs rest :=
  List.map_append

end Code

namespace Stmt

mutual

theorem labelCount_unlocated (s : Stmt) : s.unlocated.labelCount = s.labelCount := by
  match s with
  | assign .. | goto .. | label .. | eval .. => rfl
  | forLoop _ _ _ body _ | whileLoop _ body _ | ifThen _ body _ | function _ _ _ body _ =>
      simp [unlocated, labelCount, labelCount_unlocatedAll body]
  | ifElse _ yes no _ =>
      simp [unlocated, labelCount, labelCount_unlocatedAll yes, labelCount_unlocatedAll no]

theorem labelCount_unlocatedAll (b : List Stmt) :
    labelCountAll (unlocatedAll b) = labelCountAll b := by
  match b with
  | [] => rfl
  | s :: rest =>
      simp [unlocatedAll, labelCountAll, labelCount_unlocated s, labelCount_unlocatedAll rest]

end

mutual

theorem instrs_lower_unlocated (k : Nat) (s : Stmt) :
    (s.unlocated.lower k).instrs = (s.lower k).instrs := by
  match s with
  | assign .. | goto .. | label .. | eval .. => rfl
  | forLoop _ _ _ body _ | whileLoop _ body _ | ifThen _ body _ | function _ _ _ body _ =>
      simp [unlocated, lower, instrs_lowerAll_unlocated _ body]
  | ifElse _ yes no _ =>
      simp [unlocated, lower, labelCount_unlocatedAll yes, instrs_lowerAll_unlocated _ yes,
        instrs_lowerAll_unlocated _ no]

theorem instrs_lowerAll_unlocated (k : Nat) (b : List Stmt) :
    (lowerAll k (unlocatedAll b)).instrs = (lowerAll k b).instrs := by
  match b with
  | [] => rfl
  | s :: rest =>
      simp [unlocatedAll, lowerAll, labelCount_unlocated s, instrs_lower_unlocated k s,
        instrs_lowerAll_unlocated _ rest]

end

end Stmt

/-! ## Telling statements from their code -/

theorem ne_madeLabel_of_not_mem {x : String} (h : '$' ∉ x.toList) (k : Nat) :
    x ≠ madeLabel k := by
  rintro rfl
  simp [madeLabel] at h

/--
What can come after the statements of a block when `k` labels are made: the end of
a function, a jump to a made label, or a made label with a smaller number.
-/
def Instr.EndsBlock (k : Nat) : Instr → Prop
  | funReturn => True
  | goto x => ∃ j, x = madeLabel j
  | label x => ∃ j < k, x = madeLabel j
  | assign .. | jumpFalse .. | funEntry .. | eval .. => False

namespace Instr

@[simp] theorem endsBlock_funReturn {k : Nat} : funReturn.EndsBlock k := trivial

@[simp] theorem endsBlock_goto {j k : Nat} : (goto (madeLabel j)).EndsBlock k := ⟨j, rfl⟩

@[simp] theorem endsBlock_label {j k : Nat} : (label (madeLabel j)).EndsBlock k ↔ j < k := by
  constructor
  · rintro ⟨i, hi, h⟩
    rwa [madeLabel_injective h]
  · intro hj
    exact ⟨j, hj, rfl⟩

end Instr

namespace Stmt

open Instr (EndsBlock)

theorem not_endsBlock_lower {s : Stmt} (hs : s.Plain) (k : Nat) :
    ∃ i rest, (s.lower k).instrs = i :: rest ∧ ¬ i.EndsBlock k := by
  match s with
  | assign .. | eval .. | ifThen .. | ifElse .. | function .. => exact ⟨_, _, rfl, id⟩
  | goto x _ | label x _ =>
      have hx := ne_madeLabel_of_not_mem hs
      exact ⟨_, _, rfl, by simp [EndsBlock, hx]⟩
  | whileLoop c body _ => exact ⟨_, _, rfl, by simp⟩
  | forLoop .. => exact hs.elim

theorem lowerAll_cons_ne {t : Stmt} {rest : List Stmt} (ht : t.Plain) {k : Nat}
    {r r' : List Instr} (hr : ∀ i ∈ r.head?, i.EndsBlock k) :
    r ≠ (lowerAll k (t :: rest)).instrs ++ r' := by
  rintro rfl
  obtain ⟨i, is, hi, hnot⟩ := not_endsBlock_lower ht k
  exact hnot (hr i (by simp [lowerAll, hi]))

/-! The code of a statement in front of other code. -/

section

variable (k : Nat) (c : Expr) (body yes no : Block) (l : Option Location) (r : List Instr)

theorem instrs_function_append (f : String) (ps : List String) (keep : Bool) :
    ((function f ps keep body l).lower k).instrs ++ r =
      .funEntry f ps keep :: ((lowerAll k body).instrs ++ .funReturn :: r) := by
  simp [lower]

theorem instrs_whileLoop_append :
    ((whileLoop c body l).lower k).instrs ++ r =
      .label (madeLabel k) :: .jumpFalse c (madeLabel (k + 1)) ::
        ((lowerAll (k + 2) body).instrs ++
          .goto (madeLabel k) :: .label (madeLabel (k + 1)) :: r) := by
  simp [lower]

theorem instrs_ifThen_append :
    ((ifThen c yes l).lower k).instrs ++ r =
      .jumpFalse c (madeLabel k) ::
        ((lowerAll (k + 1) yes).instrs ++ .label (madeLabel k) :: r) := by
  simp [lower]

theorem instrs_ifElse_append :
    ((ifElse c yes no l).lower k).instrs ++ r =
      .jumpFalse c (madeLabel k) ::
        ((lowerAll (k + 1) yes).instrs ++
          .goto (madeLabel (k + 1 + labelCountAll yes)) :: .label (madeLabel k) ::
            ((lowerAll (k + 1 + labelCountAll yes + 1) no).instrs ++
              .label (madeLabel (k + 1 + labelCountAll yes)) :: r)) := by
  simp [lower]

end

mutual

theorem lower_cancel {s t : Stmt} (hs : s.Plain) (ht : t.Plain) {k : Nat} {r r' : List Instr}
    (h : (s.lower k).instrs ++ r = (t.lower k).instrs ++ r') :
    s.unlocated = t.unlocated ∧ r = r' := by
  match s with
  | assign .. | goto .. | eval .. =>
      cases t with
      | forLoop => exact ht.elim
      | _ => simp_all [lower, unlocated]
  | label x _ =>
      cases t with
      | forLoop => exact ht.elim
      | whileLoop => simp [lower, ne_madeLabel_of_not_mem hs] at h
      | _ => simp_all [lower, unlocated]
  | function f ps keep body _ =>
      cases t with
      | forLoop => exact ht.elim
      | function g qs save body' _ =>
          simp only [instrs_function_append, List.cons.injEq, Instr.funEntry.injEq] at h
          obtain ⟨⟨rfl, rfl, rfl⟩, hbody⟩ := h
          obtain ⟨hsame, hrest⟩ := lowerAll_cancel hs ht (by simp) (by simp) hbody
          simp_all [unlocated]
      | _ => simp [lower] at h
  | whileLoop c body _ =>
      cases t with
      | forLoop => exact ht.elim
      | label x _ => simp [lower, (ne_madeLabel_of_not_mem ht _).symm] at h
      | whileLoop d body' _ =>
          simp only [instrs_whileLoop_append, List.cons.injEq,
            Instr.jumpFalse.injEq, and_true, true_and] at h
          obtain ⟨rfl, hbody⟩ := h
          obtain ⟨hsame, hrest⟩ := lowerAll_cancel hs ht (by simp) (by simp) hbody
          simp_all [unlocated]
      | _ => simp [lower] at h
  | ifThen c yes _ =>
      cases t with
      | forLoop => exact ht.elim
      | ifThen d yes' _ =>
          simp only [instrs_ifThen_append, List.cons.injEq, Instr.jumpFalse.injEq, and_true] at h
          obtain ⟨rfl, hyes⟩ := h
          obtain ⟨hsame, hrest⟩ := lowerAll_cancel hs ht (by simp; omega) (by simp; omega) hyes
          simp_all [unlocated]
      | ifElse d yes' no _ =>
          -- Behind the branch one has a label and the other a jump.
          simp only [instrs_ifThen_append, instrs_ifElse_append, List.cons.injEq,
            Instr.jumpFalse.injEq, and_true] at h
          have hyes := lowerAll_cancel hs ht.1 (by simp; omega) (by simp) h.2
          simp at hyes
      | _ => simp [lower] at h
  | ifElse c yes no _ =>
      cases t with
      | forLoop => exact ht.elim
      | ifThen d yes' _ =>
          simp only [instrs_ifElse_append, instrs_ifThen_append, List.cons.injEq,
            Instr.jumpFalse.injEq, and_true] at h
          have hyes := lowerAll_cancel hs.1 ht (by simp) (by simp; omega) h.2
          simp at hyes
      | ifElse d yes' no' _ =>
          simp only [instrs_ifElse_append, List.cons.injEq, Instr.jumpFalse.injEq, and_true] at h
          obtain ⟨rfl, hyes⟩ := h
          obtain ⟨hsame, hrest⟩ := lowerAll_cancel hs.1 ht.1 (by simp) (by simp) hyes
          simp only [List.cons.injEq, Instr.goto.injEq, true_and] at hrest
          obtain ⟨hexit, hno⟩ := hrest
          -- The jump behind the first branch says how many labels are made in it.
          have hcount := madeLabel_injective hexit
          rw [← hcount] at hno
          obtain ⟨hsame', hrest⟩ := lowerAll_cancel hs.2 ht.2 (by simp; omega) (by simp; omega) hno
          simp_all [unlocated]
      | _ => simp [lower] at h

theorem lowerAll_cancel {a b : List Stmt} (ha : PlainAll a) (hb : PlainAll b) {k : Nat}
    {r r' : List Instr} (hr : ∀ i ∈ r.head?, i.EndsBlock (k + labelCountAll a))
    (hr' : ∀ i ∈ r'.head?, i.EndsBlock (k + labelCountAll b))
    (h : (lowerAll k a).instrs ++ r = (lowerAll k b).instrs ++ r') :
    unlocatedAll a = unlocatedAll b ∧ r = r' := by
  match a, b with
  | [], [] => exact ⟨rfl, h⟩
  | [], t :: rest => exact absurd h (lowerAll_cons_ne hb.1 hr)
  | s :: rest, [] => exact absurd h.symm (lowerAll_cons_ne ha.1 hr')
  | s :: rest, t :: rest' =>
      simp only [lowerAll, Code.instrs_append, List.append_assoc] at h
      obtain ⟨hsame, hrest⟩ := lower_cancel ha.1 hb.1 h
      have hcount : s.labelCount = t.labelCount := by
        rw [← labelCount_unlocated, hsame, labelCount_unlocated]
      rw [labelCountAll, ← Nat.add_assoc] at hr hr'
      rw [hcount] at hr hrest
      obtain ⟨hsame', heq⟩ := lowerAll_cancel ha.2 hb.2 hr hr' hrest
      exact ⟨by simp [unlocatedAll, hsame, hsame'], heq⟩

end

/--
Two programs without dollar signs in their names have the same code, up to
locations, exactly if they are the same, up to locations, once conditional loops
stand for the counting ones.
-/
theorem instrs_ofBlock_eq_iff {a b : Block}
    (ha : ∀ x ∈ namesAll a ++ gotosAll a, '$' ∉ x.toList)
    (hb : ∀ x ∈ namesAll b ++ gotosAll b, '$' ∉ x.toList) :
    (Code.ofBlock a).instrs = (Code.ofBlock b).instrs ↔
      unlocatedAll (desugarAll a) = unlocatedAll (desugarAll b) := by
  rw [Code.ofBlock, Code.ofBlock, ← lower_desugarAll 0 a, ← lower_desugarAll 0 b]
  constructor
  · intro h
    have happend : (lowerAll 0 (desugarAll a)).instrs ++ [] =
        (lowerAll 0 (desugarAll b)).instrs ++ [] := by
      simpa using h
    exact (lowerAll_cancel (plainAll_desugarAll ha) (plainAll_desugarAll hb) (by simp) (by simp)
      happend).1
  · intro h
    rw [← instrs_lowerAll_unlocated, h, instrs_lowerAll_unlocated]

def searcher : Block :=
  [.function "search" ["n"] false
    [.forLoop "i" (.lit 0) (.var "n")
      [.forLoop "j" (.var "i") (.var "n")
        [.ifThen (.byte (.bin (.known .add) (.var "i") (.var "j")))
          [.goto "found" (some ⟨"searcher", 5, 1, "goto found"⟩)] none] none] none,
      .label "found" none] none]

def searcher' : Block :=
  [.function "search" ["n"] false
    [.assign (.var "i") (.lit 0) none,
      .whileLoop (.bin (.known .lt) (.var "i") (.var "n"))
        [.assign (.var "j") (.var "i") none,
          .whileLoop (.bin (.known .lt) (.var "j") (.var "n"))
            [.ifThen (.byte (.bin (.known .add) (.var "i") (.var "j"))) [.goto "found" none] none,
              .assign (.var "j") (.bin (.known .add) (.var "j") (.lit 1)) none] none,
          .assign (.var "i") (.bin (.known .add) (.var "i") (.lit 1)) none] none,
      .label "found" none] none]

theorem instrs_searcher :
    (∀ x ∈ namesAll searcher ++ gotosAll searcher, '$' ∉ x.toList) ∧
    (∀ x ∈ namesAll searcher' ++ gotosAll searcher', '$' ∉ x.toList) ∧
    (Code.ofBlock searcher).instrs = (Code.ofBlock searcher').instrs := by
  have hleft : ∀ x ∈ namesAll searcher ++ gotosAll searcher, '$' ∉ x.toList := by decide
  have hright : ∀ x ∈ namesAll searcher' ++ gotosAll searcher', '$' ∉ x.toList := by decide
  exact ⟨hleft, hright, (instrs_ofBlock_eq_iff hleft hright).mpr rfl⟩

end Stmt

end BrownLang
