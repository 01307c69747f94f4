import Mathlib.Data.List.Basic
import Mathlib.Data.List.TakeWhile
import BrownLang.Proofs.Syntax.WellFormed

/-!
# Where statements stand

A statement has the line and the column of its first token, and the scanner
counts lines by line feeds.  The text that a location shows is looked up among
the lines of a viewer, which end at other characters too.  The two agree as
long as no line up to the one in question has such a character inside.
-/

namespace BrownLang

/-! ## Lines of two kinds -/

namespace Text

def shown (line : List Char) : List Char := line.takeWhile fun c => !endsLine c

/--
A viewer does not break up the line, which is given without its line feed: only
a carriage return at the end of it may end it.
-/
def Unbroken (line : List Char) : Prop := line = shown line ∨ line = shown line ++ ['\r']

instance : DecidablePred Unbroken := fun _ => inferInstanceAs (Decidable (_ ∨ _))

theorem endsLine_of_mem_shown {line : List Char} {c : Char} (h : c ∈ shown line) :
    endsLine c = false := by
  simpa using List.mem_takeWhile_imp h

theorem shown_append_of_endsLine {c : Char} (hc : endsLine c) (cs rest : List Char) :
    shown (cs ++ c :: rest) = shown cs := by
  induction cs with
  | nil => simp [shown, hc]
  | cons d cs ih =>
      by_cases hd : endsLine d
      · simp [shown, hd]
      · simpa [shown, hd] using ih

theorem linesFrom_cons {c : Char} (hc : endsLine c = false) (current rest : List Char) :
    linesFrom current (c :: rest) = linesFrom (c :: current) rest := by
  have hreturn : c ≠ '\r' := by
    rintro rfl
    cases hc
  rw [linesFrom]
  · simp [hc]
  · simp [hreturn]

theorem linesFrom_append {cs : List Char} (h : ∀ c ∈ cs, endsLine c = false)
    (current rest : List Char) :
    linesFrom current (cs ++ rest) = linesFrom (cs.reverse ++ current) rest := by
  induction cs generalizing current with
  | nil => rfl
  | cons c cs ih =>
      rw [List.cons_append, linesFrom_cons (h c (by simp)),
        ih fun d hd => h d (List.mem_cons_of_mem c hd)]
      simp

theorem lines_of_unbroken {line : List Char} (h : Unbroken line) (rest : List Char) :
    lines (line ++ '\n' :: rest) = shown line :: lines rest := by
  have hshown := linesFrom_append fun c => @endsLine_of_mem_shown line c
  rcases h with hline | hline
  · have htext : line ++ '\n' :: rest = shown line ++ '\n' :: rest := by rw [← hline]
    rw [lines, htext, hshown]
    simp [linesFrom, lines, endsLine]
  · have htext : line ++ '\n' :: rest = shown line ++ '\r' :: '\n' :: rest := by
      simpa using congrArg (· ++ '\n' :: rest) hline
    rw [lines, htext, hshown]
    simp [linesFrom, lines]

theorem linesFrom_head (current cs : List Char) :
    (linesFrom current cs).getD 0 [] = current.reverse ++ shown cs := by
  induction cs generalizing current with
  | nil => cases current <;> simp [linesFrom, shown]
  | cons c cs ih =>
      by_cases hc : endsLine c
      · unfold linesFrom
        split <;> simp_all [shown]
      · rw [linesFrom_cons (by simpa using hc), ih]
        simp [shown, hc]

theorem splitOn_cases (cs : List Char) :
    cs.splitOn '\n' = [cs] ∨
      ∃ line rest, cs = line ++ '\n' :: rest ∧ cs.splitOn '\n' = line :: rest.splitOn '\n' := by
  by_cases h : '\n' ∈ cs
  · obtain ⟨line, rest, rfl, hline⟩ := List.eq_append_cons_of_mem h
    refine .inr ⟨line, rest, rfl, ?_⟩
    rw [List.splitOn_append_cons_self, List.splitOn_eq_singleton hline]
    rfl
  · exact .inl (List.splitOn_eq_singleton h)

theorem length_splitOn (cs : List Char) : (cs.splitOn '\n').length = cs.count '\n' + 1 := by
  rw [List.splitOn_eq_splitOnP]
  induction cs with
  | nil => rfl
  | cons c cs ih =>
      rw [List.splitOnP_cons_eq_if_modifyHead, List.count_cons]
      split <;> simp_all

theorem getD_lines {n : Nat} {cs : List Char}
    (h : ∀ line ∈ (cs.splitOn '\n').take n, Unbroken line) (hn : n < (cs.splitOn '\n').length) :
    (lines cs).getD n [] = shown ((cs.splitOn '\n').getD n []) := by
  induction n generalizing cs with
  | zero =>
      rw [lines, linesFrom_head]
      rcases splitOn_cases cs with hone | ⟨line, rest, rfl, hmore⟩
      · simp [hone]
      · simp [hmore, shown_append_of_endsLine (c := '\n') (by decide)]
  | succ n ih =>
      rcases splitOn_cases cs with hone | ⟨line, rest, rfl, hmore⟩
      · simp [hone] at hn
      · rw [hmore] at h hn ⊢
        rw [lines_of_unbroken (h line (by simp))]
        simpa using ih (fun l hl => h l (by simp [hl])) (by simpa using hn)

theorem strip_append {c : Char} (hc : isBlank c) (cs : List Char) :
    strip (cs ++ [c]) = strip cs := by
  unfold strip
  rw [List.dropWhile_append]
  split
  next h =>
    rw [List.isEmpty_iff] at h
    simp [h, hc]
  next => simp [hc]

theorem strip_shown {line : List Char} (h : Unbroken line) : strip (shown line) = strip line := by
  rcases h with hline | hline
  · rw [← hline]
  · rw [← strip_append (c := '\r') (by decide) (shown line), ← hline]

end Text

/-! ## Tokens -/

theorem Position.line_past (p : Position) (cs : List Char) :
    (p.past cs).line = p.line + cs.count '\n' := by
  induction cs generalizing p with
  | nil => rfl
  | cons c cs ih =>
      rw [Position.past_cons, ih, List.count_cons]
      by_cases hc : c = '\n'
      · simp [Position.advance, hc]
        omega
      · simp [Position.advance, hc]

namespace Token

def FoundAfter (p : Position) (cs before : List Char) (t : Token) : Prop :=
  t.position = p.past before ∧
    ∃ c rest more, cs = before ++ c :: rest ∧ piece c rest = .ok ⟨some t.lexeme, more⟩

theorem FoundAfter.later {p : Position} {c : Char} {rest before : List Char} {more : Nat}
    {t : Token} (h : t.FoundAfter (p.past (c :: rest.take more)) (rest.drop more) before) :
    t.FoundAfter p (c :: rest) (c :: rest.take more ++ before) := by
  obtain ⟨hposition, d, rest', more', hrest, hpiece⟩ := h
  refine ⟨?_, d, rest', more', ?_, hpiece⟩
  · rw [hposition, Position.past_append]
  · rw [List.append_assoc, ← hrest, List.cons_append, List.take_append_drop]

theorem foundAfter_of_scanFrom {p last : Position} {cs : List Char} {ts : List Token}
    (h : scanFrom p cs = .ok (ts, last)) {t : Token} (ht : t ∈ ts) :
    ∃ before, t.FoundAfter p cs before := by
  induction p, cs using scanFrom.induct generalizing ts with
  | case1 p =>
      rw [scanFrom] at h
      cases h
      cases ht
  | case2 p c rest r hpiece =>
      rw [scanFrom, hpiece] at h
      cases h
  | case3 p c rest more hpiece ih =>
      rw [scanFrom, hpiece] at h
      obtain ⟨before, hfound⟩ := ih h ht
      exact ⟨_, hfound.later⟩
  | case4 p c rest l more hpiece ih =>
      rw [scanFrom, hpiece] at h
      dsimp only at h
      obtain ⟨⟨us, last'⟩, hus, h⟩ := Reader.bind_eq_ok.mp h
      cases h
      rcases List.mem_cons.mp ht with rfl | ht
      · exact ⟨[], rfl, c, rest, more, rfl, hpiece⟩
      · obtain ⟨before, hfound⟩ := ih hus ht
        exact ⟨_, hfound.later⟩

end Token

/-! ## Readers take tokens off the front -/

section

variable {ts rest : List Token} {hlt : rest.length < ts.length}

theorem Reader.suffix_of_expect {k : Kind} (h : expect k ts = .ok ⟨rest, hlt⟩) : rest <:+ ts := by
  obtain ⟨t, rfl, -⟩ := of_expect h
  exact List.suffix_cons t rest

theorem Reader.suffix_of_expectName {x : String} (h : expectName ts = .ok (x, ⟨rest, hlt⟩)) :
    rest <:+ ts := by
  obtain ⟨p, rfl⟩ := of_expectName h
  exact List.suffix_cons _ rest

theorem Expr.suffix_of_read {e : Expr} (h : read ts = .ok (e, ⟨rest, hlt⟩)) : rest <:+ ts := by
  obtain ⟨-, pre, rfl, -, -⟩ := derives_read h
  exact List.suffix_append pre rest

theorem Expr.suffix_of_readBracketed {a : Expr} (h : readBracketed ts = .ok (a, ⟨rest, hlt⟩)) :
    rest <:+ ts := by
  obtain ⟨⟨us, hus⟩, hopen, h⟩ := Reader.bind_eq_ok.mp h
  obtain ⟨⟨a', vs, hvs⟩, hread, h⟩ := Reader.bind_eq_ok.mp h
  obtain ⟨⟨ws, hws⟩, hclose, h⟩ := Reader.bind_eq_ok.mp h
  cases h
  exact (Reader.suffix_of_expect hclose).trans
    ((suffix_of_read hread).trans (Reader.suffix_of_expect hopen))

theorem Target.suffix_of_read {t : Target} (h : read ts = .ok (t, ⟨rest, hlt⟩)) : rest <:+ ts := by
  unfold read at h
  split at h
  next =>
    obtain ⟨⟨a, us, hus⟩, hread, h⟩ := Reader.bind_eq_ok.mp h
    cases h
    exact Expr.suffix_of_readBracketed hread
  next =>
    obtain ⟨⟨a, us, hus⟩, hread, h⟩ := Reader.bind_eq_ok.mp h
    cases h
    exact (Expr.suffix_of_readBracketed hread).trans (List.suffix_cons _ _)
  next =>
    obtain ⟨⟨x, us, hus⟩, hread, h⟩ := Reader.bind_eq_ok.mp h
    cases h
    exact Reader.suffix_of_expectName hread

end

namespace Stmt

open Reader

open BrownLang.Expr (Leaves)

theorem suffix_of_paramsFrom {before ps : List String} {ts rest : List Token}
    {hlt : rest.length < ts.length} (h : paramsFrom before ts = .ok (ps, ⟨rest, hlt⟩)) :
    rest <:+ ts := by
  match ts with
  | [] => cases h
  | ⟨.name x, p⟩ :: us =>
      obtain ⟨-, ⟨q, more, hlt', rfl, hread⟩ | ⟨-, hlt', hclose⟩⟩ := of_paramsFrom_name h
      · have hmore := suffix_of_paramsFrom hread
        exact hmore.trans ((List.suffix_cons _ _).trans (List.suffix_cons _ _))
      · exact (suffix_of_expect hclose).trans (List.suffix_cons _ _)
  | ⟨.number _, _⟩ :: _ | ⟨.string _, _⟩ :: _ | ⟨.keyword _, _⟩ :: _ | ⟨.operator _, _⟩ :: _
  | ⟨.punct _, _⟩ :: _ | ⟨.newline, _⟩ :: _ => cases h
termination_by ts.length

theorem suffix_of_params {ps : List String} {ts rest : List Token}
    {hlt : rest.length < ts.length} (h : params ts = .ok (ps, ⟨rest, hlt⟩)) : rest <:+ ts := by
  obtain ⟨⟨us, hus⟩, hopen, h⟩ := bind_eq_ok.mp h
  have hus' := suffix_of_expect hopen
  dsimp only at h
  split at h
  next =>
    cases h
    exact (List.suffix_cons _ _).trans hus'
  next =>
    obtain ⟨⟨ps', vs, hvs⟩, hread, h⟩ := bind_eq_ok.mp h
    cases h
    exact (suffix_of_paramsFrom hread).trans hus'

theorem suffix_of_preserveMark (ts : List Token) : (preserveMark ts).2.1 <:+ ts := by
  unfold preserveMark
  split
  · exact List.suffix_cons _ _
  · exact List.suffix_rfl

/-! ## Statements -/

def bodies : Stmt → List Block
  | forLoop _ _ _ body _ | whileLoop _ body _ | ifThen _ body _ | function _ _ _ body _ => [body]
  | ifElse _ yes no _ => [yes, no]
  | assign .. | goto .. | label .. | eval .. => []

mutual

/-- The statement and the statements in it, at every depth. -/
def parts : Stmt → List Stmt
  | forLoop x a b body l => forLoop x a b body l :: partsAll body
  | whileLoop c body l => whileLoop c body l :: partsAll body
  | ifThen c yes l => ifThen c yes l :: partsAll yes
  | ifElse c yes no l => ifElse c yes no l :: (partsAll yes ++ partsAll no)
  | function f ps keep body l => function f ps keep body l :: partsAll body
  | assign t e l => [assign t e l]
  | goto x l => [goto x l]
  | label x l => [label x l]
  | eval e l => [eval e l]

def partsAll : List Stmt → List Stmt
  | [] => []
  | s :: rest => parts s ++ partsAll rest

end

theorem parts_eq (s : Stmt) : s.parts = s :: s.bodies.flatMap partsAll := by
  cases s <;> simp [parts, bodies]

def keyword? : Stmt → Option Keyword
  | forLoop .. => some .kwFor
  | whileLoop .. => some .kwWhile
  | ifThen .. | ifElse .. => some .kwIf
  | function .. => some .kwFun
  | goto .. => some .kwGoto
  | assign .. | label .. | eval .. => none

/-- The token opens the statement and gives it its place. -/
structure OpensWith (o : Origin) (s : Stmt) (t : Token) : Prop where
  loc : s.loc = some (o.locate t.position)
  keyword : ∀ k, s.keyword? = some k → t.lexeme = .keyword k

/-- The blocks are read one after the other, and other tokens are passed over. -/
inductive ReadsBlocks (o : Origin) : List Block → List Token → List Token → Prop
  | none {ts rest} : rest <:+ ts → ReadsBlocks o [] ts rest
  | block {ending b bs ts us vs rest} : us <:+ ts → Leaves (readBlock o ending us) b vs →
      ReadsBlocks o bs vs rest → ReadsBlocks o (b :: bs) ts rest

theorem of_simple {o : Origin} {s : Stmt} {ts rest : List Token}
    {hlt : rest.length < ts.length} (h : simple o ts = .ok (s, ⟨rest, hlt⟩)) :
    s.bodies = [] ∧ s.keyword? = none ∧ s.loc = (ts.head?.map fun t => o.locate t.position) ∧
      rest <:+ ts := by
  obtain ⟨⟨e, us, hus⟩, hread, h⟩ := bind_eq_ok.mp h
  have he := Expr.suffix_of_read hread
  dsimp only at h
  split at h
  next p us' _ =>
    obtain ⟨⟨t, vs, hvs⟩, htarget, h⟩ := bind_eq_ok.mp h
    cases h
    exact ⟨rfl, rfl, rfl,
      (Target.suffix_of_read htarget).trans ((List.suffix_cons _ _).trans he)⟩
  next =>
    split at h
    next =>
      cases h
      exact ⟨rfl, rfl, rfl, he⟩
    next => cases h

theorem of_read {o : Origin} {s : Stmt} {ts rest : List Token} (h : Leaves (read o ts) s rest) :
    ∃ t us, ts = t :: us ∧ OpensWith o s t ∧ ReadsBlocks o s.bodies us rest := by
  obtain ⟨hlt, h⟩ := h
  unfold read at h
  split at h
  next p us =>
    obtain ⟨⟨c, us₁, h₁⟩, hcond, h⟩ := bind_eq_ok.mp h
    obtain ⟨⟨yes, us₂, h₂⟩, hyes, h⟩ := bind_eq_ok.mp h
    have hc := Expr.suffix_of_read hcond
    dsimp only at h
    split at h
    next q us₃ hle =>
      obtain ⟨⟨no, us₄, h₄⟩, hno, h⟩ := bind_eq_ok.mp h
      obtain ⟨⟨us₅, h₅⟩, hend, h⟩ := bind_eq_ok.mp h
      cases h
      exact ⟨_, us, rfl, ⟨rfl, fun _ hk => by cases hk; rfl⟩, .block hc ⟨_, hyes⟩
        (.block (List.suffix_cons _ _) ⟨_, hno⟩ (.none (suffix_of_expect hend)))⟩
    next =>
      obtain ⟨⟨us₅, h₅⟩, hend, h⟩ := bind_eq_ok.mp h
      cases h
      exact ⟨_, us, rfl, ⟨rfl, fun _ hk => by cases hk; rfl⟩,
        .block hc ⟨_, hyes⟩ (.none (suffix_of_expect hend))⟩
  next p us =>
    obtain ⟨⟨c, us₁, h₁⟩, hcond, h⟩ := bind_eq_ok.mp h
    obtain ⟨⟨body, us₂, h₂⟩, hbody, h⟩ := bind_eq_ok.mp h
    obtain ⟨⟨us₃, h₃⟩, hend, h⟩ := bind_eq_ok.mp h
    cases h
    exact ⟨_, us, rfl, ⟨rfl, fun _ hk => by cases hk; rfl⟩,
      .block (Expr.suffix_of_read hcond) ⟨_, hbody⟩ (.none (suffix_of_expect hend))⟩
  next p us =>
    obtain ⟨⟨x, us₁, h₁⟩, hcounter, h⟩ := bind_eq_ok.mp h
    obtain ⟨⟨us₂, h₂⟩, hfrom, h⟩ := bind_eq_ok.mp h
    obtain ⟨⟨a, us₃, h₃⟩, hfirst, h⟩ := bind_eq_ok.mp h
    obtain ⟨⟨us₄, h₄⟩, hto, h⟩ := bind_eq_ok.mp h
    obtain ⟨⟨b, us₅, h₅⟩, hbound, h⟩ := bind_eq_ok.mp h
    obtain ⟨⟨body, us₆, h₆⟩, hbody, h⟩ := bind_eq_ok.mp h
    obtain ⟨⟨us₇, h₇⟩, hend, h⟩ := bind_eq_ok.mp h
    cases h
    have hhead : us₅ <:+ us :=
      (Expr.suffix_of_read hbound).trans ((suffix_of_expect hto).trans
        ((Expr.suffix_of_read hfirst).trans ((suffix_of_expect hfrom).trans
          (suffix_of_expectName hcounter))))
    exact ⟨_, us, rfl, ⟨rfl, fun _ hk => by cases hk; rfl⟩,
      .block hhead ⟨_, hbody⟩ (.none (suffix_of_expect hend))⟩
  next p us =>
    obtain ⟨⟨f, us₁, h₁⟩, hname, h⟩ := bind_eq_ok.mp h
    obtain ⟨⟨ps, us₂, h₂⟩, hparams, h⟩ := bind_eq_ok.mp h
    have hmark := suffix_of_preserveMark us₂
    dsimp only at h
    generalize preserveMark us₂ = mark at h hmark
    obtain ⟨keep, vs, hvs⟩ := mark
    dsimp only at h hmark
    obtain ⟨⟨body, us₃, h₃⟩, hbody, h⟩ := bind_eq_ok.mp h
    obtain ⟨⟨us₄, h₄⟩, hend, h⟩ := bind_eq_ok.mp h
    cases h
    have hhead : vs <:+ us :=
      hmark.trans ((suffix_of_params hparams).trans (suffix_of_expectName hname))
    exact ⟨_, us, rfl, ⟨rfl, fun _ hk => by cases hk; rfl⟩,
      .block hhead ⟨_, hbody⟩ (.none (suffix_of_expect hend))⟩
  next p us =>
    obtain ⟨⟨l, us₁, h₁⟩, hname, h⟩ := bind_eq_ok.mp h
    cases h
    exact ⟨_, us, rfl, ⟨rfl, fun _ hk => by cases hk; rfl⟩, .none (suffix_of_expectName hname)⟩
  next l p q us =>
    cases h
    exact ⟨_, _, rfl, ⟨rfl, fun _ hk => by cases hk⟩, .none (List.suffix_cons _ _)⟩
  next =>
    obtain ⟨hbodies, hkeyword, hloc, hrest⟩ := of_simple h
    cases ts with
    | nil => exact absurd hlt (Nat.not_lt_zero _)
    | cons t us =>
        refine ⟨t, us, rfl, ⟨hloc, by simp [hkeyword]⟩, ?_⟩
        rw [hbodies]
        rcases List.suffix_cons_iff.mp hrest with rfl | hrest
        · exact absurd hlt (Nat.lt_irrefl _)
        · exact .none hrest

/-- Somewhere among the tokens the statement is read, and it opens with `t`. -/
def StandsAt (o : Origin) (ts : List Token) (s : Stmt) (t : Token) : Prop :=
  ∃ us rest, t :: us <:+ ts ∧ Leaves (read o (t :: us)) s rest ∧ OpensWith o s t

theorem StandsAt.mono {o : Origin} {ts us : List Token} {s : Stmt} {t : Token}
    (h : StandsAt o us s t) (hsuffix : us <:+ ts) : StandsAt o ts s t := by
  obtain ⟨vs, rest, hvs, hread⟩ := h
  exact ⟨vs, rest, hvs.trans hsuffix, hread⟩

mutual

theorem standsAt_of_read {o : Origin} {s : Stmt} {ts rest : List Token}
    (h : Leaves (read o ts) s rest) :
    rest <:+ ts ∧ ∀ u ∈ s.parts, ∃ t, StandsAt o ts u t := by
  obtain ⟨t, us, hts, hopens, hblocks⟩ := of_read h
  have hinner := standsAt_of_blocks hblocks
  rw [hts] at h ⊢
  have hsuffix := List.suffix_cons t us
  refine ⟨hinner.1.trans hsuffix, fun u hu => ?_⟩
  rw [parts_eq] at hu
  rcases List.mem_cons.mp hu with rfl | hu
  · exact ⟨t, us, rest, List.suffix_rfl, h, hopens⟩
  · obtain ⟨b, hb, hu⟩ := List.mem_flatMap.mp hu
    obtain ⟨v, hv⟩ := hinner.2 b hb u hu
    exact ⟨v, hv.mono hsuffix⟩
termination_by (ts.length, 0, 0)
decreasing_by
  rw [hts]
  exact Prod.Lex.left _ _ (Nat.lt_succ_self _)

theorem standsAt_of_blocks {o : Origin} {bs : List Block} {ts rest : List Token}
    (h : ReadsBlocks o bs ts rest) :
    rest <:+ ts ∧ ∀ b ∈ bs, ∀ u ∈ partsAll b, ∃ t, StandsAt o ts u t := by
  match bs, h with
  | [], .none hrest => exact ⟨hrest, by simp⟩
  | b :: bs, .block hus hread hrest =>
      have hblock := standsAt_of_readBlock hread
      have hvs := hblock.1.trans hus
      have hblocks := standsAt_of_blocks hrest
      refine ⟨hblocks.1.trans hvs, List.forall_mem_cons.mpr ⟨fun u hu => ?_, fun b hb u hu => ?_⟩⟩
      · obtain ⟨t, ht⟩ := hblock.2 u hu
        exact ⟨t, ht.mono hus⟩
      · obtain ⟨t, ht⟩ := hblocks.2 b hb u hu
        exact ⟨t, ht.mono hvs⟩
termination_by (ts.length, 2, bs.length)
decreasing_by
  · exact Prod.Lex.right' _ hus.length_le (Prod.Lex.left _ _ (by omega))
  · exact Prod.Lex.right' _ hvs.length_le (Prod.Lex.right _ (Nat.lt_succ_self _))

theorem standsAt_of_readBlock {o : Origin} {ending : Ending} {b : Block}
    {ts rest : List Token} (h : Leaves (readBlock o ending ts) b rest) :
    rest <:+ ts ∧ ∀ u ∈ partsAll b, ∃ t, StandsAt o ts u t := by
  generalize hus : ts = us at h
  have hlen := congrArg List.length hus
  obtain ⟨hle, h⟩ := h
  unfold readBlock at h
  split at h
  next =>
    split at h
    next =>
      cases h
      exact ⟨List.suffix_rfl, by simp [partsAll]⟩
    next => cases h
  next t us =>
    split at h
    next =>
      cases h
      exact ⟨List.suffix_rfl, by simp [partsAll]⟩
    next =>
      split at h
      next =>
        obtain ⟨⟨b', vs, hvs⟩, hblock, h⟩ := bind_eq_ok.mp h
        cases h
        have hrest := standsAt_of_readBlock ⟨_, hblock⟩
        have hsuffix := List.suffix_cons t us
        refine ⟨hrest.1.trans hsuffix, fun u hu => ?_⟩
        obtain ⟨v, hv⟩ := hrest.2 u hu
        exact ⟨v, hv.mono hsuffix⟩
      next =>
        obtain ⟨⟨s, vs, hvs⟩, hstmt, h⟩ := bind_eq_ok.mp h
        obtain ⟨_, -, h⟩ := bind_eq_ok.mp h
        obtain ⟨⟨b', ws, hws⟩, hblock, h⟩ := bind_eq_ok.mp h
        cases h
        have hs := standsAt_of_read ⟨_, hstmt⟩
        have hrest := standsAt_of_readBlock ⟨_, hblock⟩
        refine ⟨hrest.1.trans hs.1, fun u hu => ?_⟩
        rcases List.mem_append.mp hu with hu | hu
        · exact hs.2 u hu
        · obtain ⟨v, hv⟩ := hrest.2 u hu
          exact ⟨v, hv.mono hs.1⟩
termination_by (ts.length, 1, 0)
decreasing_by
  · rw [hlen]
    exact Prod.Lex.right _ (Prod.Lex.left _ _ (by omega))
  all_goals
    apply Prod.Lex.left
    rw [hlen]
    first | exact hvs | exact Nat.lt_succ_self _

end

end Stmt

/-! ## Files -/

theorem DataItem.suffix_of_readAll {ts rest : List Token} {items : List DataItem}
    (h : readAll ts = .ok (items, rest)) : rest <:+ ts := by
  induction ts using readAll.induct generalizing items with
  | case1 p us =>
      rw [readAll] at h
      cases h
      exact List.suffix_cons _ _
  | case2 p us ih =>
      rw [readAll] at h
      exact (ih h).trans (List.suffix_cons _ _)
  | case3 x p q us ih =>
      rw [readAll] at h
      obtain ⟨⟨items', r⟩, hread, h⟩ := Reader.bind_eq_ok.mp h
      cases h
      exact (ih hread).trans ((List.suffix_cons _ _).trans (List.suffix_cons _ _))
  | case4 s p us ih =>
      rw [readAll] at h
      obtain ⟨⟨items', r⟩, hread, h⟩ := Reader.bind_eq_ok.mp h
      cases h
      exact (ih hread).trans (List.suffix_cons _ _)
  | case5 n p us hn ih =>
      rw [readAll, if_pos hn] at h
      obtain ⟨⟨items', r⟩, hread, h⟩ := Reader.bind_eq_ok.mp h
      cases h
      exact (ih hread).trans (List.suffix_cons _ _)
  | case6 n p us hn =>
      rw [readAll, if_neg hn] at h
      cases h
  | case7 p n q us hn ih =>
      rw [readAll, if_pos hn] at h
      obtain ⟨⟨items', r⟩, hread, h⟩ := Reader.bind_eq_ok.mp h
      cases h
      exact (ih hread).trans ((List.suffix_cons _ _).trans (List.suffix_cons _ _))
  | case8 p n q us hn =>
      rw [readAll, if_neg hn] at h
      cases h
  | case9 p us hus =>
      rw [readAll] at h
      · cases h
      · exact hus
  | case10 us =>
      rw [readAll] at h
      · cases h
      all_goals assumption

namespace Source

theorem suffix_of_readData {ts rest : List Token} {items : List DataItem}
    (h : readData ts = .ok (items, rest)) : rest <:+ ts := by
  unfold readData at h
  split at h
  next =>
    obtain ⟨⟨items', r⟩, hread, h⟩ := Reader.bind_eq_ok.mp h
    obtain ⟨_, -, h⟩ := Reader.bind_eq_ok.mp h
    cases h
    exact (DataItem.suffix_of_readAll hread).trans (List.suffix_cons _ _)
  next =>
    cases h
    exact List.suffix_rfl

theorem standsAt_of_parse {file text : String} {src : Source} (h : parse file text = .ok src) :
    ∃ ts last, Token.scan text = .ok (ts, last) ∧
      ∀ s ∈ Stmt.partsAll src.code, ∃ t, s.StandsAt (Origin.ofText file text) ts t := by
  obtain ⟨⟨ts, last⟩, hscan, h⟩ := Reader.bind_eq_ok.mp h
  refine ⟨ts, last, hscan, fun s hs => ?_⟩
  dsimp only at h
  split at h
  next hread =>
    cases h
    obtain ⟨⟨items, r⟩, hdata, hread⟩ := Reader.bind_eq_ok.mp hread
    obtain ⟨⟨code, rest⟩, hcode, hread⟩ := Reader.bind_eq_ok.mp hread
    cases hread
    obtain ⟨t, ht⟩ := (Stmt.standsAt_of_readBlock ⟨_, hcode⟩).2 s hs
    exact ⟨t, ht.mono ((suffix_of_readData hdata).trans (List.dropWhile_suffix _))⟩
  next => cases h

end Source

def Text.lineAt (text : String) (n : Nat) : List Char :=
  (text.toList.splitOn '\n').getD (n - 1) []

section

variable {text : String} {before rest : List Char} (htext : text.toList = before ++ rest)

include htext

theorem Text.lt_length_splitOn : before.count '\n' < (text.toList.splitOn '\n').length := by
  rw [length_splitOn, htext, List.count_append]
  omega

theorem Text.lineAt_mem_take :
    lineAt text (before.count '\n' + 1) ∈
      (text.toList.splitOn '\n').take (before.count '\n' + 1) := by
  have hn := lt_length_splitOn htext
  rw [lineAt, Nat.add_sub_cancel, List.getD_eq_getElem?_getD, List.getElem?_eq_getElem hn]
  exact List.mem_take_iff_getElem.mpr ⟨before.count '\n', by omega, rfl⟩

theorem Origin.statementAt_ofText (file : String)
    (h : ∀ line ∈ (text.toList.splitOn '\n').take (before.count '\n'), Text.Unbroken line) :
    (Origin.ofText file text).statementAt (before.count '\n' + 1) =
      String.ofList (Text.strip (Text.shown (Text.lineAt text (before.count '\n' + 1)))) := by
  rw [Text.lineAt, Nat.add_sub_cancel, ← Text.getD_lines h (Text.lt_length_splitOn htext)]
  simp [statementAt, ofText]

end

/--
A statement at any depth has the line and the column of its first token, as
the scanner counts them, and its text is the line of that number in a viewer.
That is the line itself, as far as a viewer does not break it up, if a viewer
breaks up none of the lines before it.
-/
theorem Source.statement_location {file text : String} {src : Source}
    (hparse : parse file text = .ok src) {s : Stmt} (hs : s ∈ Stmt.partsAll src.code) :
    ∃ ts last t before l,
      Token.scan text = .ok (ts, last) ∧ s.StandsAt (Origin.ofText file text) ts t ∧
      t.FoundAfter .start text.toList before ∧ l.line = before.count '\n' + 1 ∧
      s.loc = some l ∧ l.file = file ∧ l.line = t.position.line ∧ l.column = t.position.column ∧
      l.statement =
        String.ofList (Text.strip ((Text.lines text.toList).getD (l.line - 1) [])) ∧
      ((∀ line ∈ (text.toList.splitOn '\n').take (l.line - 1), Text.Unbroken line) →
        l.statement = String.ofList (Text.strip (Text.shown (Text.lineAt text l.line)))) ∧
      ((∀ line ∈ (text.toList.splitOn '\n').take l.line, Text.Unbroken line) →
        l.statement = String.ofList (Text.strip (Text.lineAt text l.line))) := by
  obtain ⟨ts, last, hscan, hstands⟩ := standsAt_of_parse hparse
  obtain ⟨t, hstands⟩ := hstands s hs
  obtain ⟨us, rest, hsuffix, hread, hopens⟩ := hstands
  have ht : t ∈ ts := hsuffix.subset List.mem_cons_self
  obtain ⟨before, hfound⟩ := Token.foundAfter_of_scanFrom hscan ht
  obtain ⟨hposition, c, after, more, htext, -⟩ := id hfound
  have hline : t.position.line = before.count '\n' + 1 := by
    rw [hposition, Position.line_past, Nat.add_comm]
    rfl
  have hshown := Origin.statementAt_ofText htext file
  refine ⟨ts, last, t, before, _, hscan, ⟨us, rest, hsuffix, hread, hopens⟩, hfound, hline,
    hopens.loc, rfl, rfl, rfl, ?_, ?_, ?_⟩
  · simp [Origin.locate, Origin.statementAt, Origin.ofText]
  · intro h
    simp only [Origin.locate, hline, Nat.add_sub_cancel] at h ⊢
    exact hshown h
  · intro h
    simp only [Origin.locate, hline] at h ⊢
    rw [hshown fun line hmem => h line (List.take_subset_take_left _ (Nat.le_succ _) hmem),
      Text.strip_shown (h _ (Text.lineAt_mem_take htext))]

def nested.call : Stmt := .eval (.call "f" [.lit 2]) (some ⟨"nested", 3, 3, "f(2)"⟩)

def nested : Source where
  data := []
  code := [.whileLoop (.lit 1) [nested.call] (some ⟨"nested", 2, 1, "while 1"⟩)]

theorem nested_call_location :
    let text := "# \tonce\r\nwhile 1\r\n  f(2)\r\nend"
    Source.parse "nested" text = .ok nested ∧ nested.call ∈ Stmt.partsAll nested.code ∧
      (∀ line ∈ (text.toList.splitOn '\n').take 3, Text.Unbroken line) ∧
      nested.call.loc.map Location.statement =
        some (String.ofList (Text.strip (Text.lineAt text 3))) := by
  intro text
  have hparse : Source.parse "nested" text = .ok nested := by
    dsimp only [text]
    cbv
  have hcall : nested.call ∈ Stmt.partsAll nested.code := by
    simp [nested, nested.call, Stmt.partsAll, Stmt.parts]
  have hlines : ∀ line ∈ (text.toList.splitOn '\n').take 3, Text.Unbroken line := by
    decide +kernel
  obtain ⟨ts, last, t, before, l, -, -, -, -, hloc, -, -, -, -, -, hstatement⟩ :=
    Source.statement_location hparse hcall
  refine ⟨hparse, hcall, hlines, ?_⟩
  cases hloc
  rw [← hstatement hlines]
  rfl

theorem Source.not_statement_of_line :
    ¬ ∀ file text src s l, parse file text = .ok src → s ∈ Stmt.partsAll src.code →
      s.loc = some l → l.statement = String.ofList (Text.strip (Text.lineAt text l.line)) := by
  intro h
  have hparse : parse "page" "# a\x0cb\n1 -> x" =
      .ok ⟨[], [.assign (.var "x") (.lit 1) (some ⟨"page", 2, 1, "b"⟩)]⟩ := by
    cbv
  have hstatement := h _ _ _ (.assign (.var "x") (.lit 1) (some ⟨"page", 2, 1, "b"⟩)) _ hparse
    (by simp [Stmt.partsAll, Stmt.parts]) rfl
  revert hstatement
  decide +kernel

end BrownLang
