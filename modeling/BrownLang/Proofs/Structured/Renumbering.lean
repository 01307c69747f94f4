import Mathlib.Algebra.GroupWithZero.Nat
import BrownLang.Proofs.Structured.Desugaring
import BrownLang.Proofs.Syntax.Locations

/-!
# Programs put together

Lowering numbers the labels that it makes through the whole program.  So the code
of two programs put together is that of the first and then that of the second,
whose made labels have numbers that are higher by the number of labels made for
the first.  How many these are can be seen from the statements at every depth.
-/

namespace BrownLang

/-! ## Raising the numbers of made labels -/

def madeNumber? (x : String) : Option Nat :=
  let k := Text.ofDigits 10 (x.toList.drop 10)
  if x = madeLabel k then some k else none

@[simp] theorem madeNumber?_madeLabel (k : Nat) : madeNumber? (madeLabel k) = some k := by
  have hdigits : (madeLabel k).toList.drop 10 = Nat.toDigits 10 k := by
    simp [madeLabel, Text.decimal]
  rw [madeNumber?, hdigits, Text.ofDigits_toDigits]
  exact if_pos rfl

theorem madeNumber?_of_not_mem {x : String} (h : '$' ∉ x.toList) : madeNumber? x = none :=
  if_neg (ne_madeLabel_of_not_mem h _)

def renumberLabel (n : Nat) (x : String) : String :=
  match madeNumber? x with
  | some k => madeLabel (k + n)
  | none => x

@[simp] theorem renumberLabel_madeLabel (n k : Nat) :
    renumberLabel n (madeLabel k) = madeLabel (k + n) := by
  simp [renumberLabel]

theorem renumberLabel_of_not_mem {x : String} (n : Nat) (h : '$' ∉ x.toList) :
    renumberLabel n x = x := by
  rw [renumberLabel, madeNumber?_of_not_mem h]

namespace Instr

/-- The instruction with higher numbers of made labels, where it defines them or jumps there. -/
def renumber (n : Nat) : Instr → Instr
  | label x => label (renumberLabel n x)
  | goto x => goto (renumberLabel n x)
  | jumpFalse c x => jumpFalse c (renumberLabel n x)
  | assign t e => assign t e
  | funEntry f ps keep => funEntry f ps keep
  | funReturn => funReturn
  | eval e => eval e

end Instr

namespace Code

def renumber (n : Nat) (code : Code) : Code :=
  code.map fun line => { line with instr := line.instr.renumber n }

@[simp] theorem renumber_nil (n : Nat) : renumber n [] = [] := rfl

@[simp] theorem renumber_cons (n : Nat) (line : CodeLine) (code : Code) :
    renumber n (line :: code) = ⟨line.instr.renumber n, line.loc⟩ :: renumber n code := rfl

@[simp] theorem renumber_append (n : Nat) (code rest : Code) :
    renumber n (code ++ rest) = renumber n code ++ renumber n rest :=
  List.map_append

end Code

namespace Stmt

mutual

theorem lower_renumber (k n : Nat) {s : Stmt} (h : ∀ x ∈ s.names ++ s.gotos, '$' ∉ x.toList) :
    s.lower (k + n) = (s.lower k).renumber n := by
  match s with
  | assign .. | eval .. => rfl
  | goto x _ | label x _ =>
      have hx := renumberLabel_of_not_mem n (h x (by simp [names, gotos]))
      simp [lower, Instr.renumber, hx]
  | ifThen c yes _ =>
      have hyes := lowerAll_renumber (k + 1) n (b := yes) h
      rw [Nat.add_right_comm] at hyes
      simp [lower, Instr.renumber, hyes]
  | whileLoop c body _ | forLoop _ _ _ body _ =>
      have hbody := lowerAll_renumber (k + 2) n (b := body) h
      rw [Nat.add_right_comm] at hbody
      simp [lower, Instr.renumber, hbody, Nat.add_right_comm k 1 n]
  | function f ps keep body _ =>
      have hbody := lowerAll_renumber k n (b := body) fun x hx => h x (List.mem_cons_of_mem f hx)
      simp [lower, Instr.renumber, hbody]
  | ifElse c yes no _ =>
      have hexit : k + n + 1 + labelCountAll yes = k + 1 + labelCountAll yes + n := by omega
      have hyes := lowerAll_renumber (k + 1) n (b := yes) fun x hx => h x (by grind [names, gotos])
      have hno := lowerAll_renumber (k + 1 + labelCountAll yes + 1) n (b := no) fun x hx =>
        h x (by grind [names, gotos])
      rw [Nat.add_right_comm] at hyes hno
      simp [lower, Instr.renumber, hexit, hyes, hno]

theorem lowerAll_renumber (k n : Nat) {b : Block}
    (h : ∀ x ∈ namesAll b ++ gotosAll b, '$' ∉ x.toList) :
    lowerAll (k + n) b = (lowerAll k b).renumber n := by
  match b with
  | [] => rfl
  | s :: rest =>
      have hs := lower_renumber k n (s := s) fun x hx => h x (by grind [namesAll, gotosAll])
      have hrest := lowerAll_renumber (k + s.labelCount) n (b := rest) fun x hx =>
        h x (by grind [namesAll, gotosAll])
      rw [Nat.add_right_comm] at hrest
      rw [lowerAll, hs, hrest, lowerAll, Code.renumber_append]

end

/-! ## Counting made labels -/

/-- The number of labels that lowering makes for a statement itself, and not for those in it. -/
def ownLabels : Stmt → Nat
  | ifThen .. => 1
  | ifElse .. | forLoop .. | whileLoop .. => 2
  | assign .. | goto .. | label .. | function .. | eval .. => 0

mutual

theorem labelCount_eq_sum (s : Stmt) : s.labelCount = (s.parts.map ownLabels).sum := by
  match s with
  | assign .. | goto .. | label .. | eval .. => rfl
  | ifThen _ body _ | whileLoop _ body _ | forLoop _ _ _ body _ | function _ _ _ body _ =>
      simp [labelCount, parts, ownLabels, labelCountAll_eq_sum body, Nat.add_comm]
  | ifElse _ yes no _ =>
      simp [labelCount, parts, ownLabels, labelCountAll_eq_sum yes, labelCountAll_eq_sum no,
        Nat.add_comm]

theorem labelCountAll_eq_sum (b : Block) :
    labelCountAll b = ((partsAll b).map ownLabels).sum := by
  match b with
  | [] => rfl
  | s :: rest =>
      simp [labelCountAll, partsAll, labelCount_eq_sum s, labelCountAll_eq_sum rest]

end

/-! ## What the code of a block defines -/

mutual

theorem count_defined_lower (k : Nat) (s : Stmt) (x : String) :
    (s.lower k).defined.count x =
      s.names.count x + ((List.range' k s.labelCount).map madeLabel).count x := by
  match s with
  | assign .. | goto .. | label .. | eval .. => simp [lower, names, labelCount, Instr.defines?]
  | function f ps keep body _ =>
      have hbody := count_defined_lowerAll k body x
      simp [lower, names, labelCount, Instr.defines?, List.count_cons, hbody]
      omega
  | ifThen c yes _ =>
      have hyes := count_defined_lowerAll (k + 1) yes x
      simp [lower, names, labelCount, Instr.defines?, List.range'_succ, List.count_cons, hyes]
      omega
  | whileLoop c body _ | forLoop _ _ _ body _ =>
      have hbody := count_defined_lowerAll (k + 2) body x
      have htwo : k + 1 + 1 = k + 2 := rfl
      simp [lower, names, labelCount, Instr.defines?, List.range'_succ, List.count_cons, hbody,
        htwo]
      omega
  | ifElse c yes no _ =>
      have hyes := count_defined_lowerAll (k + 1) yes x
      have hno := count_defined_lowerAll (k + 1 + labelCountAll yes + 1) no x
      simp [lower, names, labelCount, Instr.defines?, range'_two, List.count_cons, hyes, hno]
      omega

theorem count_defined_lowerAll (k : Nat) (b : Block) (x : String) :
    (lowerAll k b).defined.count x =
      (namesAll b).count x + ((List.range' k (labelCountAll b)).map madeLabel).count x := by
  match b with
  | [] => simp [lowerAll, namesAll, labelCountAll]
  | s :: rest =>
      have hs := count_defined_lower k s x
      have hrest := count_defined_lowerAll (k + s.labelCount) rest x
      rw [lowerAll, namesAll, labelCountAll, Code.defined_append, ← List.range'_append_1,
        List.map_append, List.count_append, List.count_append, List.count_append, hs, hrest]
      omega

end

theorem perm_defined_ofBlock (b : Block) : (Code.ofBlock b).defined.Perm
    (namesAll b ++ (List.range (labelCountAll b)).map madeLabel) := by
  rw [List.perm_iff_count]
  intro x
  rw [Code.ofBlock, count_defined_lowerAll, List.count_append, List.range_eq_range']

theorem perm_made_ofBlock {b : Block} (h : ∀ x ∈ namesAll b, '$' ∉ x.toList) :
    ((Code.ofBlock b).defined.filter fun x => '$' ∈ x.toList).Perm
      ((List.range (labelCountAll b)).map madeLabel) := by
  have hnames : (namesAll b).filter (fun x => '$' ∈ x.toList) = [] := by
    simpa using h
  have hmade : ((List.range (labelCountAll b)).map madeLabel).filter (fun x => '$' ∈ x.toList) =
      (List.range (labelCountAll b)).map madeLabel := by
    simp [madeLabel]
  have hfilter := (perm_defined_ofBlock b).filter fun x => '$' ∈ x.toList
  rwa [List.filter_append, hnames, hmade, List.nil_append] at hfilter

/--
The code of two blocks, one after the other, is the code of the first and then
that of the second, with the numbers of its made labels raised by the number of
those of the first.  That number is the sum over all statements of the first, at
every depth, and lowering defines just the labels with the numbers below it, each
of them once.
-/
theorem ofBlock_append_renumbered (a b : Block)
    (ha : ∀ x ∈ namesAll a ++ gotosAll a, '$' ∉ x.toList)
    (hb : ∀ x ∈ namesAll b ++ gotosAll b, '$' ∉ x.toList) :
    let n := ((partsAll a).map ownLabels).sum
    let made := (Code.ofBlock a).defined.filter fun x => '$' ∈ x.toList
    Code.ofBlock (a ++ b) = Code.ofBlock a ++ (Code.ofBlock b).renumber n ∧
      made.Perm ((List.range n).map madeLabel) ∧ made.Nodup ∧
      (Code.ofBlock a).defined.Perm (namesAll a ++ made) := by
  intro n made
  have hn : labelCountAll a = n := labelCountAll_eq_sum a
  have hmade : made.Perm ((List.range n).map madeLabel) := by
    rw [← hn]
    exact perm_made_ofBlock fun x hx => ha x (List.mem_append_left _ hx)
  have hcode : lowerAll n b = (lowerAll 0 b).renumber n := by
    have hraised := lowerAll_renumber 0 n hb
    rwa [Nat.zero_add] at hraised
  refine ⟨?_, hmade, ?_, ?_⟩
  · rw [Code.ofBlock, lowerAll_append, Nat.zero_add, hn, hcode]
    rfl
  · exact hmade.nodup_iff.mpr (List.nodup_range.map madeLabel_injective)
  · have hdefined := perm_defined_ofBlock a
    rw [hn] at hdefined
    exact hdefined.trans (hmade.symm.append_left _)

def seeker : Block :=
  [.function "seek" ["n"] false
    [.whileLoop (.var "n")
      [.ifElse (.byte (.var "n")) [.goto "seen" none]
        [.assign (.var "n") (.bin (.known .sub) (.var "n") (.lit 1)) none] none] none,
      .label "seen" none] none]

def sweeper : Block :=
  [.forLoop "i" (.lit 0) (.lit 9)
    [.ifThen (.call "seek" [.var "i"]) [.goto "out" none] none] none, .label "out" none]

theorem seeker_sweeper_renumbered :
    (∀ x ∈ namesAll seeker ++ gotosAll seeker, '$' ∉ x.toList) ∧
    (∀ x ∈ namesAll sweeper ++ gotosAll sweeper, '$' ∉ x.toList) ∧
    Code.ofBlock (seeker ++ sweeper) = Code.ofBlock seeker ++ (Code.ofBlock sweeper).renumber 4 := by
  have hseeker : ∀ x ∈ namesAll seeker ++ gotosAll seeker, '$' ∉ x.toList := by decide
  have hsweeper : ∀ x ∈ namesAll sweeper ++ gotosAll sweeper, '$' ∉ x.toList := by decide
  exact ⟨hseeker, hsweeper, (ofBlock_append_renumbered seeker sweeper hseeker hsweeper).1⟩

end Stmt

end BrownLang
