import BrownLang.Proofs.Syntax.Scanning

/-!
# The canonical text spells the lexemes

The scanner finds in a canonical text just the lexemes that it was written
for: no two of them run together.
-/

namespace BrownLang

open Token

variable {rest : List Char} {ls : List Lexeme}

theorem Token.Scans.alone {c : Char} {l : Lexeme} (hc : c ∉ [' ', '\t', '\r', '\n', ';', '#'])
    (hl : single? c = some l) (hpair : ∀ d, pair? c d = none) (h : Scans rest ls) :
    Scans (c :: rest) (l :: ls) := by
  refine .sign hc hl ?_ h
  cases rest with
  | nil => rfl
  | cons d rest => exact hpair d

theorem Token.Scans.operator (o : Operator) (h : Scans rest ls) :
    Scans (o.symbol.toList ++ ' ' :: rest) (.operator o :: ls) := by
  cases o
  case eq | ne | le | ge | shl | shr => exact .pair (by decide) rfl h.space
  all_goals exact .sign (by decide) rfl rfl h.space

/-! ## Expressions -/

namespace Expr

mutual

theorem scans_render {rest : List Char} {ls : List Lexeme} (e : Expr) (he : e.wellFormed)
    (hrest : Delimited rest) (h : Scans rest ls) :
    Scans (e.render.toList ++ rest) (e.lexemes ++ ls) := by
  match e with
  | lit n => exact .number (by simpa [wellFormed] using he) hrest h
  | var x => exact .name he hrest h
  | addr x =>
      have hx := Scans.name he hrest h
      simpa [render, lexemes] using hx.alone (c := '&') (by decide) rfl (fun _ => rfl)
  | word a =>
      have hclose : Scans (']' :: rest) (.punct .rbracket :: ls) :=
        .alone (by decide) rfl (fun _ => rfl) h
      have ha := scans_render a he (.cons (by decide)) hclose
      simpa [render, lexemes] using ha.alone (by decide) rfl (fun _ => rfl)
  | byte a =>
      have hclose : Scans (']' :: rest) (.punct .rbracket :: ls) :=
        .alone (by decide) rfl (fun _ => rfl) h
      have ha := scans_render a he (.cons (by decide)) hclose
      have hopen := ha.alone (c := '[') (by decide) rfl (fun _ => rfl)
      have hb := Scans.name (x := "b") (by decide) (.cons (by decide)) hopen
      simpa [render, lexemes] using hb
  | bin op l r =>
      simp only [wellFormed, Bool.and_eq_true] at he
      obtain ⟨⟨hop, hl⟩, hr⟩ := he
      match op with
      | .known o =>
          have hclose : Scans (')' :: rest) (.punct .rparen :: ls) :=
            .alone (by decide) rfl (fun _ => rfl) h
          have hright := scans_render r hr (.cons (by decide)) hclose
          have hleft := scans_render l hl (.cons (by decide)) (hright.operator o).space
          simpa [render, lexemes, BinOp.symbol, BinOp.lexeme] using
            hleft.alone (c := '(') (by decide) rfl (fun _ => rfl)
  | call f args =>
      simp only [wellFormed, Bool.and_eq_true] at he
      obtain ⟨hf, hargs⟩ := he
      have hclose : Scans (')' :: rest) (.punct .rparen :: ls) :=
        .alone (by decide) rfl (fun _ => rfl) h
      have hall := scans_renderArgs args hargs (.cons (by decide)) hclose
      have hopen := hall.alone (c := '(') (by decide) rfl (fun _ => rfl)
      simpa [render, lexemes] using Scans.name hf (.cons (by decide)) hopen

theorem scans_renderArgs {rest : List Char} {ls : List Lexeme} (args : List Expr)
    (hargs : wellFormedAll args) (hrest : Delimited rest) (h : Scans rest ls) :
    Scans ((renderArgs args).toList ++ rest) (argLexemes args ++ ls) := by
  match args with
  | [] => exact h
  | [a] =>
      simp only [wellFormedAll, Bool.and_true] at hargs
      exact scans_render a hargs hrest h
  | a :: b :: more =>
      obtain ⟨ha, hmore⟩ := Bool.and_eq_true_iff.mp hargs
      have hall := scans_renderArgs (b :: more) hmore hrest h
      have hcomma := hall.space.alone (c := ',') (by decide) rfl (fun _ => rfl)
      have hfirst := scans_render a ha (.cons (by decide)) hcomma
      simpa [renderArgs, argLexemes] using hfirst

end

end Expr

theorem Target.scans_render (t : Target) (ht : t.wellFormed) (hrest : Delimited rest)
    (h : Scans rest ls) : Scans (t.render.toList ++ rest) (t.lexemes ++ ls) := by
  cases t with
  | var x => exact Expr.scans_render (.var x) ht hrest h
  | word a => exact Expr.scans_render (.word a) ht hrest h
  | byte a => exact Expr.scans_render (.byte a) ht hrest h

/-! ## Statements -/

theorem Token.Scans.keywordLine (k : Keyword) (h : Scans rest ls) :
    Scans (k.spelling.toList ++ '\n' :: rest) (.keyword k :: .newline :: ls) :=
  .keyword k (.cons (by decide)) h.newline

theorem Token.Scans.keywordBlank (k : Keyword) (h : Scans rest ls) :
    Scans (k.spelling.toList ++ ' ' :: rest) (.keyword k :: ls) :=
  .keyword k (.cons (by decide)) h.space

theorem Expr.wellFormedAll_vars {ps : List String} (h : ps.all isName) :
    Expr.wellFormedAll (ps.map .var) := by
  induction ps with
  | nil => rfl
  | cons x ps ih =>
      obtain ⟨hx, hps⟩ := Bool.and_eq_true_iff.mp h
      exact Bool.and_eq_true_iff.mpr ⟨hx, ih hps⟩

namespace Stmt

mutual

theorem scans_print {rest : List Char} {ls : List Lexeme} (s : Stmt) (hs : s.wellFormed)
    (h : Scans rest ls) : Scans (s.print.toList ++ rest) (s.lexemes ++ .newline :: ls) := by
  have hline : Delimited ('\n' :: rest) := .cons (by decide)
  match s with
  | assign t e l =>
      obtain ⟨ht, he⟩ := Bool.and_eq_true_iff.mp hs
      have htarget := t.scans_render ht hline h.newline
      have harrow : Scans ('-' :: '>' :: ' ' :: (t.render.toList ++ '\n' :: rest))
          (.punct .arrow :: (t.lexemes ++ .newline :: ls)) :=
        .pair (by decide) rfl htarget.space
      have hall := e.scans_render he (.cons (by decide)) harrow.space
      simpa [print, lexemes, Keyword.spelling] using hall
  | goto x l =>
      have hx := Scans.name hs hline h.newline
      simpa [print, lexemes, Keyword.spelling] using hx.keywordBlank .kwGoto
  | label x l =>
      have hcolon := h.newline.alone (c := ':') (by decide) rfl (fun _ => rfl)
      simpa [print, lexemes, Keyword.spelling] using Scans.name hs (.cons (by decide)) hcolon
  | eval e l =>
      obtain ⟨-, he⟩ := Bool.and_eq_true_iff.mp hs
      simpa [print, lexemes, Keyword.spelling] using e.scans_render he hline h.newline
  | ifThen c yes l =>
      obtain ⟨hc, hyes⟩ := Bool.and_eq_true_iff.mp hs
      have hblock := scans_printAll yes hyes (h.keywordLine .kwEnd)
      have hcond := c.scans_render hc (.cons (by decide)) hblock.newline
      simpa [print, lexemes, Keyword.spelling] using hcond.keywordBlank .kwIf
  | ifElse c yes no l =>
      simp only [wellFormed, Bool.and_eq_true] at hs
      obtain ⟨⟨hc, hyes⟩, hno⟩ := hs
      have hsecond := scans_printAll no hno (h.keywordLine .kwEnd)
      have hfirst := scans_printAll yes hyes (hsecond.keywordLine .kwElse)
      have hcond := c.scans_render hc (.cons (by decide)) hfirst.newline
      simpa [print, lexemes, Keyword.spelling] using hcond.keywordBlank .kwIf
  | whileLoop c body l =>
      obtain ⟨hc, hbody⟩ := Bool.and_eq_true_iff.mp hs
      have hblock := scans_printAll body hbody (h.keywordLine .kwEnd)
      have hcond := c.scans_render hc (.cons (by decide)) hblock.newline
      simpa [print, lexemes, Keyword.spelling] using hcond.keywordBlank .kwWhile
  | forLoop x a b body l =>
      simp only [wellFormed, Bool.and_eq_true] at hs
      obtain ⟨⟨⟨hx, ha⟩, hb⟩, hbody⟩ := hs
      have hblock := scans_printAll body hbody (h.keywordLine .kwEnd)
      have hbound := b.scans_render hb (.cons (by decide)) hblock.newline
      have hfirst := a.scans_render ha (.cons (by decide)) (hbound.keywordBlank .kwTo).space
      have hcounter := Scans.name hx (.cons (by decide)) (hfirst.keywordBlank .kwFrom).space
      simpa [print, lexemes, Keyword.spelling] using hcounter.keywordBlank .kwFor
  | function f ps keep body l =>
      simp only [wellFormed, Bool.and_eq_true] at hs
      obtain ⟨⟨⟨hf, hps⟩, -⟩, hbody⟩ := hs
      have hblock := scans_printAll body hbody (h.keywordLine .kwEnd)
      have hmark : Scans
          ((if keep then " preserve" else "").toList ++ '\n' :: ((printAll body).toList ++
            (Keyword.kwEnd.spelling.toList ++ '\n' :: rest)))
          ((if keep then [.keyword .kwPreserve] else []) ++ .newline :: (lexemesAll body ++
            .keyword .kwEnd :: .newline :: ls)) := by
        cases keep with
        | true => simpa [Keyword.spelling] using (hblock.keywordLine .kwPreserve).space
        | false => simpa [Keyword.spelling] using hblock.newline
      have hclose := hmark.alone (c := ')') (by decide) rfl (fun _ => rfl)
      have hparams := Expr.scans_renderArgs (ps.map .var) (Expr.wellFormedAll_vars hps)
        (.cons (by decide)) hclose
      have hopen := hparams.alone (c := '(') (by decide) rfl (fun _ => rfl)
      have hname := Scans.name hf (.cons (by decide)) hopen
      simpa [print, lexemes, Keyword.spelling] using hname.keywordBlank .kwFun

theorem scans_printAll {rest : List Char} {ls : List Lexeme} (b : List Stmt)
    (hb : wellFormedAll b) (h : Scans rest ls) :
    Scans ((printAll b).toList ++ rest) (lexemesAll b ++ ls) := by
  match b with
  | [] => exact h
  | s :: more =>
      obtain ⟨hs, hmore⟩ := Bool.and_eq_true_iff.mp hb
      have hall := scans_print s hs (scans_printAll more hmore h)
      simpa [printAll, lexemesAll] using hall

end

end Stmt

/-! ## Data and whole files -/

theorem fromUTF8?_toUTF8 (s : String) :
    String.fromUTF8? ⟨s.toUTF8.data.toList.toArray⟩ = some s := by
  have hbytes : (⟨s.toUTF8.data.toList.toArray⟩ : ByteArray) = s.toUTF8 := by
    rw [Array.toArray_toList]
  have hvalid : s.toUTF8.IsValidUTF8 := s.isValidUTF8
  rw [hbytes, String.fromUTF8?, dif_pos hvalid]
  rfl

namespace DataItem

theorem WellFormed.string {bs : List UInt8} (h : (bytes bs).WellFormed) (hone : ∀ b, bs ≠ [b])
    (hfour : ∀ a b c d, bs ≠ [a, b, c, d]) : ∃ s : String, bs = s.toUTF8.data.toList := by
  rcases h with hlength | hlength | hstring
  · obtain ⟨b, rfl⟩ := List.length_eq_one_iff.mp hlength
    exact absurd rfl (hone b)
  · match bs, hlength with
    | [a, b, c, d], _ => exact absurd rfl (hfour a b c d)
  · exact hstring

theorem scans_print (item : DataItem) (hitem : item.WellFormed) (h : Scans rest ls) :
    Scans (item.print.toList ++ '\n' :: rest) (item.lexemes ++ .newline :: ls) := by
  have hline : Delimited ('\n' :: rest) := .cons (by decide)
  unfold print lexemes
  split
  next x =>
    have hcolon := h.newline.alone (c := ':') (by decide) rfl (fun _ => rfl)
    simpa using Scans.name hitem (.cons (by decide)) hcolon
  next b => exact .number (Nat.lt_trans b.toNat_lt (by decide)) hline h.newline
  next a b c d =>
    have hnumber := Scans.number (Word.ofBytes_lt a b c d) hline h.newline
    simpa [Keyword.spelling] using hnumber.keywordBlank .kwWord
  next bs hone hfour =>
    obtain ⟨s, rfl⟩ := hitem.string hone hfour
    rw [fromUTF8?_toUTF8]
    exact .string s h.newline

theorem scans_printAll (items : List DataItem) (hitems : ∀ item ∈ items, item.WellFormed)
    (h : Scans rest ls) : Scans ((printAll items).toList ++ rest) (lexemesAll items ++ ls) := by
  induction items with
  | nil => exact h
  | cons item items ih =>
      have hall := ih fun i hi => hitems i (List.mem_cons_of_mem _ hi)
      simpa [printAll, lexemesAll] using item.scans_print (hitems item (by simp)) hall

end DataItem

theorem Source.scans_print (s : Source) (hs : s.WellFormed) : Scans s.print.toList s.lexemes := by
  have hcode := Stmt.scans_printAll s.code hs.code .nil
  rw [List.append_nil, List.append_nil] at hcode
  unfold print lexemes
  by_cases hdata : s.data.isEmpty
  · simpa [hdata] using hcode
  · have hend := hcode.keywordLine .kwEnd
    have hitems := DataItem.scans_printAll s.data hs.data hend
    simpa [hdata, Keyword.spelling] using hitems.keywordLine .kwData

end BrownLang
