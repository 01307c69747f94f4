import Mathlib.Data.List.Basic
import BrownLang.Instr.Listing
import BrownLang.Proofs.Structured.Desugaring
import BrownLang.Proofs.Syntax.ReadStmt
import BrownLang.Proofs.Syntax.Spelling
import BrownLang.Proofs.Syntax.WellFormed

/-!
# What a listing says

A listing of code that was parsed and lowered says the code in full.  Its lines
can be told apart because no instruction holds a line end; and the line of an
instruction says which it is.  Most are written as statements are, and a
statement can be read back.  For the others it is enough to find the colon.
-/

namespace BrownLang

/-! ## Plain texts -/

namespace Token

/-- The characters of names, numbers and signs, and the blank; the colon is not among them. -/
def isPlain (c : Char) : Bool :=
  isNamePart c || [' ', '(', ')', '[', ']', ',', '&', '|', '^', '+', '-', '*', '/', '%', '<', '>',
    '=', '!'].contains c

def plain (s : String) : Bool := s.toList.all isPlain

@[simp] theorem plain_append (s t : String) : plain (s ++ t) = (plain s && plain t) := by
  simp [plain]

theorem not_mem_of_plain {s : String} (h : plain s) {c : Char} (hc : isPlain c = false) :
    c ∉ s.toList := fun hmem => by
  rw [List.all_eq_true.mp h c hmem] at hc
  cases hc

theorem plain_of_isName {x : String} (h : isName x) : plain x := by
  obtain ⟨c, cs, hlist, hc, hcs, -⟩ := spelled_of_isName h
  simp only [plain, hlist, List.all_cons, Bool.and_eq_true, List.all_eq_true]
  exact ⟨by simp [isPlain, isNamePart, hc], fun d hd => by simp [isPlain, hcs d hd]⟩

theorem plain_decimal (n : Nat) : plain (Text.decimal n) := by
  simp only [plain, Text.decimal, String.toList_ofList, List.all_eq_true]
  intro c hc
  have hdigit : c.isDigit := Nat.isDigit_of_mem_toDigits (by omega) (by omega) hc
  simp [isPlain, isNamePart_of_isDecimalDigit (isDecimalDigit_of_isDigit hdigit)]

theorem plain_symbol (o : Operator) : plain o.symbol := by
  cases o <;> decide

end Token

open Token

namespace Expr

mutual

theorem plain_render {e : Expr} (he : e.wellFormed) : plain e.render := by
  match e with
  | lit n => exact plain_decimal n
  | var x => exact plain_of_isName he
  | addr x => simp +decide [render, plain_of_isName he]
  | word a | byte a => simp +decide [render, plain_render (e := a) he]
  | bin op l r =>
      simp only [wellFormed, Bool.and_eq_true] at he
      obtain ⟨⟨hop, hl⟩, hr⟩ := he
      match op with
      | .known o =>
          simp +decide [render, BinOp.symbol, plain_render hl, plain_render hr, plain_symbol o]
  | call f args =>
      simp only [wellFormed, Bool.and_eq_true] at he
      simp +decide [render, plain_of_isName he.1, plain_renderArgs he.2]

theorem plain_renderArgs {args : List Expr} (hargs : wellFormedAll args) :
    plain (renderArgs args) := by
  match args with
  | [] => rfl
  | [a] =>
      simp only [wellFormedAll, Bool.and_true] at hargs
      exact plain_render hargs
  | a :: b :: more =>
      obtain ⟨ha, hmore⟩ := Bool.and_eq_true_iff.mp hargs
      simp +decide [renderArgs, plain_render ha, plain_renderArgs hmore]

end

theorem renderArgs_vars (ps : List String) : renderArgs (ps.map .var) = ", ".intercalate ps := by
  match ps with
  | [] => rfl
  | [x] => simp [renderArgs, render]
  | x :: y :: more =>
      have hmore := renderArgs_vars (y :: more)
      simp only [List.map_cons] at hmore
      simp [renderArgs, render, hmore, String.intercalate_cons_cons]

end Expr

theorem Target.plain_render {t : Target} (ht : t.wellFormed) : plain t.render := by
  cases t with
  | var x => exact plain_of_isName ht
  | word a | byte a => simp +decide [render, Expr.plain_render (e := a) ht]

/-! ## Telling statements from their texts -/

theorem Token.Scans.unique {cs : List Char} {ls ls' : List Lexeme} (h : Scans cs ls)
    (h' : Scans cs ls') : ls = ls' := by
  obtain ⟨ts, last, hscan, hts⟩ := h.scanFrom_eq .start
  obtain ⟨us, last', hscan', hus⟩ := h'.scanFrom_eq .start
  rw [hscan] at hscan'
  cases hscan'
  rw [← hts, hus]

theorem Stmt.unlocated_eq_of_print {s t : Stmt} (hs : s.wellFormed) (ht : t.wellFormed)
    (h : s.print = t.print) : s.unlocated = t.unlocated := by
  have hscans := s.scans_print hs .nil
  have hscans' := t.scans_print ht .nil
  rw [h] at hscans
  have hlexemes := hscans.unique hscans'
  obtain ⟨ts, last, -, hts⟩ := hscans.scanFrom_eq .start
  let o := Origin.ofText "" s.print
  obtain ⟨s', ⟨_, _, hread, -⟩, hsame⟩ := reads_read o s hs hts
  obtain ⟨t', ⟨_, _, hread', -⟩, hsame'⟩ := reads_read o t ht (hts.trans hlexemes)
  rw [hread] at hread'
  cases hread'
  rw [← hsame, hsame']

theorem Expr.eq_of_render {e e' : Expr} (he : e.wellFormed) (he' : e'.wellFormed)
    (h : e.render = e'.render) : e = e' := by
  have hprint : (Stmt.ifThen e [] none).print = (Stmt.ifThen e' [] none).print := by
    simp only [Stmt.print, h]
  have hsame := Stmt.unlocated_eq_of_print (s := .ifThen e [] none) (t := .ifThen e' [] none)
    (by simp [Stmt.wellFormed, Stmt.wellFormedAll, he])
    (by simp [Stmt.wellFormed, Stmt.wellFormedAll, he']) hprint
  simpa [Stmt.unlocated] using hsame

/-! ## The lines of instructions -/

namespace Instr

def isIndented : Instr → Bool
  | assign .. | goto _ | jumpFalse .. | eval _ => true
  | label _ | funEntry .. | funReturn => false

def hasColon : Instr → Bool
  | label _ | jumpFalse .. => true
  | assign .. | goto _ | funEntry .. | funReturn | eval _ => false

theorem not_mem_of_isLabel {l : String} (hl : IsLabel l) {c : Char} (hc : isPlain c = false)
    (hdollar : c ≠ '$') : c ∉ l.toList := by
  rcases hl with hl | ⟨k, rfl⟩
  · exact not_mem_of_plain (plain_of_isName hl) hc
  · have hdigits := not_mem_of_plain (plain_decimal k) hc
    have hmark : c ∉ "internal_".toList := not_mem_of_plain (by decide) hc
    simp_all [madeLabel]

theorem exists_cons_of_isLabel {l : String} (hl : IsLabel l) :
    ∃ c cs, l.toList = c :: cs ∧ c ≠ ' ' := by
  rcases hl with hl | ⟨k, rfl⟩
  · obtain ⟨c, cs, hlist, hc, -⟩ := spelled_of_isName hl
    refine ⟨c, cs, hlist, ?_⟩
    rintro rfl
    exact absurd hc (by decide)
  · exact ⟨'$', "internal_".toList ++ (Text.decimal k).toList, by simp [madeLabel], by decide⟩

variable {x y : Instr}

theorem head?_render (hx : x.WellFormed) : x.render.toList.head? = some ' ' ↔ x.isIndented := by
  cases hx with
  | assign | goto | jumpFalse | eval | funEntry | funReturn => simp [render, isIndented]
  | label hl =>
      obtain ⟨c, cs, hlist, hc⟩ := exists_cons_of_isLabel hl
      simp [render, isIndented, hlist, hc]

theorem plain_render (hx : x.WellFormed) (hcolon : x.hasColon = false) :
    plain x.render ∨ ∃ k, x = goto (madeLabel k) := by
  cases hx with
  | assign ht he =>
      exact .inl (by simp +decide [render, Expr.plain_render he, Target.plain_render ht])
  | goto hl =>
      rcases hl with hl | hmade
      · exact .inl (by simp +decide [render, plain_of_isName hl])
      · exact .inr (by simpa using hmade)
  | label | jumpFalse => cases hcolon
  | @funEntry f ps keep hf hps _ =>
      have hparams : plain (", ".intercalate ps) := by
        rw [← Expr.renderArgs_vars]
        exact Expr.plain_renderArgs (Expr.wellFormedAll_vars hps)
      cases keep <;> exact .inl (by simp +decide [render, plain_of_isName hf, hparams])
  | funReturn => exact .inl (by decide)
  | eval _ he => exact .inl (by simp +decide [render, Expr.plain_render he])

theorem mem_render_iff (hx : x.WellFormed) {c : Char} (hc : isPlain c = false) (hdollar : c ≠ '$') :
    c ∈ x.render.toList ↔ c = ':' ∧ x.hasColon := by
  have hgoto : c ∉ " goto ".toList := not_mem_of_plain (by decide) hc
  cases hcolon : x.hasColon with
  | false =>
      have hnot : c ∉ x.render.toList := by
        rcases plain_render hx hcolon with hplain | ⟨k, rfl⟩
        · exact not_mem_of_plain hplain hc
        · have hlabel := not_mem_of_isLabel (.inr ⟨k, rfl⟩) hc hdollar
          simp_all [render]
      simpa using hnot
  | true =>
      cases hx with
      | assign | goto | funEntry | funReturn | eval => cases hcolon
      | label hl => simp [render, not_mem_of_isLabel hl hc hdollar]
      | jumpFalse he hl =>
          have hif : c ∉ "    if not ".toList := not_mem_of_plain (by decide) hc
          have hcond := not_mem_of_plain (Expr.plain_render he) hc
          have hlabel := not_mem_of_isLabel hl hc hdollar
          simp_all [render]

/-! ## Telling instructions from their lines -/

/--
The instruction comes first in the code of a statement, and is written as this
is, but for the indentation and, where it opens a block, the end of that.
-/
structure Says (indent ending : String) (x : Instr) (s : Stmt) : Prop where
  wellFormed : s.wellFormed
  print : indent ++ s.print = x.render ++ "\n" ++ ending
  head : (s.lower 0).instrs.head? = some x

theorem Says.eq_of_render {indent ending : String} {s t : Stmt} (hx : Says indent ending x s)
    (hy : Says indent ending y t) (h : x.render = y.render) : x = y := by
  have hprint : indent ++ s.print = indent ++ t.print := by
    rw [hx.print, hy.print, h]
  have hsame := Stmt.unlocated_eq_of_print hx.wellFormed hy.wellFormed
    ((String.append_right_inj indent).mp hprint)
  have hhead := hx.head
  rw [← Stmt.instrs_lower_unlocated, hsame, Stmt.instrs_lower_unlocated, hy.head] at hhead
  exact (Option.some.inj hhead).symm

theorem exists_says (hx : x.WellFormed) (hcolon : x.hasColon = false) (hindent : x.isIndented)
    (hplain : plain x.render) : ∃ s, Says "    " "" x s := by
  cases hx with
  | @assign t e ht he =>
      exact ⟨.assign t e none, by simp [Stmt.wellFormed, ht, he],
        by simp [Stmt.print, render, String.append_assoc], rfl⟩
  | @goto l hl =>
      rcases hl with hl | ⟨k, rfl⟩
      · refine ⟨.goto l none, hl, ?_, rfl⟩
        rw [← String.toList_inj]
        simp [Stmt.print, render]
      · have hdollar : '$' ∈ (goto (madeLabel k)).render.toList := by simp [render, madeLabel]
        exact absurd hdollar (not_mem_of_plain hplain (by decide))
  | @eval e hcall he =>
      exact ⟨.eval e none, by simp [Stmt.wellFormed, hcall, he],
        by simp [Stmt.print, render, String.append_assoc], rfl⟩
  | label | jumpFalse => cases hcolon
  | funEntry | funReturn => cases hindent

theorem says_funEntry {f : String} {ps : List String} {keep : Bool} (hf : isName f)
    (hps : ps.all isName) (hnodup : ps.Nodup) :
    Says "" "end\n" (funEntry f ps keep) (.function f ps keep [] none) where
  wellFormed := by simp_all [Stmt.wellFormed, Stmt.wellFormedAll]
  print := by simp [Stmt.print, Stmt.printAll, render, Expr.renderArgs_vars]
  head := rfl

theorem eq_of_render_colon (hx : x.WellFormed) (hy : y.WellFormed) (hcolon : x.hasColon)
    (hindent : x.isIndented = y.isIndented) (hboth : x.hasColon = y.hasColon)
    (h : x.render = y.render) : x = y := by
  cases hx with
  | assign | goto | funEntry | funReturn | eval => cases hcolon
  | label hl =>
      cases hy with
      | label hl' =>
          rw [(String.append_left_inj ":").mp h]
      | jumpFalse => cases hindent
      | assign | goto | funEntry | funReturn | eval => cases hboth
  | @jumpFalse c l hc hl =>
      cases hy with
      | @jumpFalse c' l' hc' hl' =>
          have hcond := not_mem_of_plain (Expr.plain_render hc) (c := ':') (by decide)
          have hgoto : ':' ∉ " goto ".toList ++ l.toList := by
            simpa using not_mem_of_isLabel hl (c := ':') (by decide) (by decide)
          have hsplit : c.render.toList ++ ':' :: (" goto ".toList ++ l.toList) =
              c'.render.toList ++ ':' :: (" goto ".toList ++ l'.toList) := by
            rw [← String.toList_inj] at h
            simpa [render] using h
          obtain ⟨hsame, -, hrest⟩ := (List.append_cons_inj_of_notMem hcond hgoto).mp hsplit
          rw [Expr.eq_of_render hc hc' (String.toList_inj.mp hsame),
            String.toList_inj.mp (List.append_cancel_left hrest)]
      | label => cases hindent
      | assign | goto | funEntry | funReturn | eval => cases hboth

theorem eq_of_render_indented (hx : x.WellFormed) (hy : y.WellFormed) (hxc : x.hasColon = false)
    (hyc : y.hasColon = false) (hxi : x.isIndented) (hyi : y.isIndented)
    (h : x.render = y.render) : x = y := by
  by_cases hplain : plain x.render
  · obtain ⟨s, hs⟩ := exists_says hx hxc hxi hplain
    rw [h] at hplain
    obtain ⟨t, ht⟩ := exists_says hy hyc hyi hplain
    exact hs.eq_of_render ht h
  · obtain ⟨j, rfl⟩ := (plain_render hx hxc).resolve_left hplain
    rw [h] at hplain
    obtain ⟨k, rfl⟩ := (plain_render hy hyc).resolve_left hplain
    rw [(String.append_right_inj "    goto ").mp h]

theorem eq_of_render_header (hx : x.WellFormed) (hy : y.WellFormed) (hxc : x.hasColon = false)
    (hyc : y.hasColon = false) (hxi : x.isIndented = false) (hyi : y.isIndented = false)
    (h : x.render = y.render) : x = y := by
  have hreturn {f : String} {ps : List String} {keep : Bool} :
      (funEntry f ps keep).render ≠ funReturn.render := by
    intro heq
    have hhead := congrArg (·.toList.head?) heq
    simp [render] at hhead
  cases hx with
  | assign | goto | jumpFalse | eval => cases hxi
  | label => cases hxc
  | funEntry hf hps hnodup =>
      cases hy with
      | assign | goto | jumpFalse | eval => cases hyi
      | label => cases hyc
      | funEntry hf' hps' hnodup' =>
          exact (says_funEntry hf hps hnodup).eq_of_render (says_funEntry hf' hps' hnodup') h
      | funReturn => exact absurd h hreturn
  | funReturn =>
      cases hy with
      | assign | goto | jumpFalse | eval => cases hyi
      | label => cases hyc
      | funEntry => exact absurd h.symm hreturn
      | funReturn => rfl

theorem eq_of_render (hx : x.WellFormed) (hy : y.WellFormed) (h : x.render = y.render) : x = y := by
  have hindent : x.isIndented = y.isIndented := by
    rw [Bool.eq_iff_iff, ← head?_render hx, ← head?_render hy, h]
  have hcolon : x.hasColon = y.hasColon := by
    have hx' := mem_render_iff hx (c := ':') (by decide) (by decide)
    have hy' := mem_render_iff hy (c := ':') (by decide) (by decide)
    rw [h, hy', and_iff_right rfl, and_iff_right rfl] at hx'
    exact (Bool.eq_iff_iff.mpr hx').symm
  -- Which kind of line it is shows in a blank at its head and in a colon.
  cases hxc : x.hasColon with
  | true => exact eq_of_render_colon hx hy hxc hindent hcolon h
  | false =>
      rw [hxc] at hcolon
      cases hxi : x.isIndented with
      | true => exact eq_of_render_indented hx hy hxc hcolon.symm hxi (hindent.symm.trans hxi) h
      | false => exact eq_of_render_header hx hy hxc hcolon.symm hxi (hindent.symm.trans hxi) h

end Instr

/-! ## Listings -/

namespace Code

@[simp] theorem length_listingFrom (width i : Nat) (xs : List Instr) :
    (listingFrom width i xs).length = xs.length := by
  induction xs generalizing i with
  | nil => rfl
  | cons x xs ih => simp [listingFrom, ih]

theorem newline_not_mem_listingFrom (width i : Nat) {xs : List Instr}
    (hxs : ∀ x ∈ xs, x.WellFormed) : ∀ line ∈ listingFrom width i xs, '\n' ∉ line.toList := by
  induction xs generalizing i with
  | nil => exact nofun
  | cons x xs ih =>
      obtain ⟨hx, hrest⟩ := List.forall_mem_cons.mp hxs
      have hindex : '\n' ∉ (Text.decimal i).toList :=
        not_mem_of_plain (plain_decimal i) (by decide)
      have hinstr : '\n' ∉ x.render.toList := by
        simp [Instr.mem_render_iff hx (c := '\n') (by decide) (by decide)]
      rw [listingFrom]
      refine List.forall_mem_cons.mpr ⟨?_, ih _ hrest⟩
      simp [Text.padLeft, hindex, hinstr]

theorem eq_of_listingFrom {width i : Nat} {xs ys : List Instr} (hxs : ∀ x ∈ xs, x.WellFormed)
    (hys : ∀ y ∈ ys, y.WellFormed) (h : listingFrom width i xs = listingFrom width i ys) :
    xs = ys := by
  induction xs generalizing i ys with
  | nil =>
      cases ys with
      | nil => rfl
      | cons y ys => cases h
  | cons x xs ih =>
      cases ys with
      | nil => cases h
      | cons y ys =>
          obtain ⟨hx, hxs⟩ := List.forall_mem_cons.mp hxs
          obtain ⟨hy, hys⟩ := List.forall_mem_cons.mp hys
          obtain ⟨hline, hrest⟩ := List.cons.inj h
          rw [Instr.eq_of_render hx hy ((String.append_right_inj _).mp hline), ih hxs hys hrest]

variable {code code' : Code}

theorem splitOn_listing (hne : code ≠ []) (h : ∀ x ∈ code.instrs, x.WellFormed) :
    code.listing.toList.splitOn '\n' =
      (listingFrom (Text.decimal (code.length - 1)).length 0 code.instrs).map String.toList := by
  rw [listing, String.toList_intercalate]
  refine List.splitOn_intercalate '\n' ?_ ?_
  · simpa using newline_not_mem_listingFrom _ 0 h
  · intro hnil
    have hlength := congrArg List.length hnil
    simp [instrs] at hlength
    exact hne hlength

theorem listing_ne_empty (hne : code ≠ []) (h : ∀ x ∈ code.instrs, x.WellFormed) :
    code.listing ≠ "" := by
  intro hempty
  have hlines := splitOn_listing hne h
  rw [hempty] at hlines
  cases code with
  | nil => exact hne rfl
  | cons line rest => simp [instrs, listingFrom] at hlines

theorem instrs_eq_of_listing (h : ∀ x ∈ code.instrs, x.WellFormed)
    (h' : ∀ x ∈ code'.instrs, x.WellFormed) (heq : code.listing = code'.listing) :
    code.instrs = code'.instrs := by
  by_cases hne : code = []
  · subst hne
    by_contra hne'
    exact listing_ne_empty (fun hnil => hne' (by rw [hnil])) h' heq.symm
  by_cases hne' : code' = []
  · subst hne'
    exact absurd heq (listing_ne_empty hne h)
  have hlines := splitOn_listing hne h
  rw [heq, splitOn_listing hne' h'] at hlines
  have hsame := List.map_injective_iff.mpr (fun _ _ => String.toList_inj.mp) hlines
  have hlength : code'.length = code.length := by
    simpa [instrs] using congrArg List.length hsame
  rw [hlength] at hsame
  exact (eq_of_listingFrom h' h hsame).symm

end Code

namespace Source

/--
A listing is faithful: two source files have the same listing exactly if they
are lowered to the same code, locations apart.
-/
theorem listing_faithful {file file' text text' : String} {s s' : Source}
    (h : parse file text = .ok s) (h' : parse file' text' = .ok s') :
    (Code.ofBlock s.code).listing = (Code.ofBlock s'.code).listing ↔
      (Code.ofBlock s.code).instrs = (Code.ofBlock s'.code).instrs := by
  have hwellFormed {file text : String} {s : Source} (h : parse file text = .ok s) :
      ∀ x ∈ (Code.ofBlock s.code).instrs, x.WellFormed := by
    simpa [Code.instrs, Code.ofBlock] using Stmt.wellFormed_lowerAll 0 (wellFormed_of_parse h).code
  constructor
  · exact Code.instrs_eq_of_listing (hwellFormed h) (hwellFormed h')
  · intro heq
    have hlength : (Code.ofBlock s.code).length = (Code.ofBlock s'.code).length := by
      simpa [Code.instrs] using congrArg List.length heq
    rw [Code.listing, Code.listing, heq, hlength]

def counted : Source where
  data := []
  code := [.forLoop "i" (.lit 0) (.call "f" [.var "i", .lit 9]) []
    (some ⟨"counted", 1, 1, "for i from 0 to f(i, 9)"⟩)]

def countedByHand : Source where
  data := []
  code := [
    .assign (.var "i") (.lit 0) (some ⟨"byhand", 1, 1, "0 -> i"⟩),
    .whileLoop (.bin (.known .lt) (.var "i") (.call "f" [.var "i", .lit 9]))
      [.assign (.var "i") (.bin (.known .add) (.var "i") (.lit 1))
        (some ⟨"byhand", 3, 1, "i + 1 -> i"⟩)]
      (some ⟨"byhand", 2, 1, "while i < f(i, 9)"⟩)]

theorem counted_listed :
    parse "counted" "for i from 0 to f(i, 9)\nend" = .ok counted ∧
      parse "byhand" "0 -> i\nwhile i < f(i, 9)\ni + 1 -> i\nend" = .ok countedByHand ∧
      (Code.ofBlock counted.code).listing =
        "0      0 -> i\n1  $internal_0:\n2      if not (i < f(i, 9)): goto $internal_1\n" ++
        "3      (i + 1) -> i\n4      goto $internal_0\n5  $internal_1:" ∧
      (Code.ofBlock countedByHand.code).listing = (Code.ofBlock counted.code).listing ∧
      (Code.ofBlock counted.code).instrs = (Code.ofBlock countedByHand.code).instrs := by
  have hparse : parse "counted" "for i from 0 to f(i, 9)\nend" = .ok counted := by cbv
  have hparse' : parse "byhand" "0 -> i\nwhile i < f(i, 9)\ni + 1 -> i\nend" =
      .ok countedByHand := by cbv
  have hlisting : (Code.ofBlock countedByHand.code).listing =
      (Code.ofBlock counted.code).listing := by decide +kernel
  exact ⟨hparse, hparse', by decide +kernel, hlisting,
    (listing_faithful hparse hparse').mp hlisting.symm⟩

end Source

end BrownLang
