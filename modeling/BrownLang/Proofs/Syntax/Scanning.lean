import BrownLang.Proofs.Syntax.Canonical
import BrownLang.Proofs.Text.Numerals

/-!
# Scanning known texts

The lexemes of a text, whatever position it starts at.  Each lemma puts one
lexeme, or one blank, in front of a text that can be scanned; the pieces of the
scanner do not look further than one character past their end.
-/

namespace BrownLang

namespace Token

/-- The text is cut into pieces that hold these lexemes. -/
inductive Scans : List Char → List Lexeme → Prop
  | nil : Scans [] []
  | lexeme {c rest l ls} (more) : piece c (more ++ rest) = .ok ⟨some l, more.length⟩ →
      Scans rest ls → Scans (c :: (more ++ rest)) (l :: ls)
  | blank {c rest ls} (more) : piece c (more ++ rest) = .ok ⟨none, more.length⟩ →
      Scans rest ls → Scans (c :: (more ++ rest)) ls

theorem Scans.scanFrom_eq {cs : List Char} {ls : List Lexeme} (h : Scans cs ls) (p : Position) :
    ∃ ts last, scanFrom p cs = .ok (ts, last) ∧ ts.map Token.lexeme = ls := by
  induction h generalizing p with
  | nil => exact ⟨[], p, by rw [scanFrom], rfl⟩
  | @lexeme c rest l ls more hpiece _ ih =>
      obtain ⟨ts, last, hrest, hts⟩ := ih (p.past (c :: more))
      refine ⟨⟨l, p⟩ :: ts, last, ?_, by rw [List.map_cons, hts]⟩
      rw [scanFrom, hpiece]
      simp only [List.take_left, List.drop_left, hrest]
      rfl
  | @blank c rest ls more hpiece _ ih =>
      obtain ⟨ts, last, hrest, hts⟩ := ih (p.past (c :: more))
      refine ⟨ts, last, ?_, hts⟩
      rw [scanFrom, hpiece]
      simp only [List.take_left, List.drop_left, hrest]

def Delimited (cs : List Char) : Prop := ∀ c, cs.head? = some c → isNamePart c = false

theorem Delimited.nil : Delimited [] := nofun

theorem Delimited.cons {c : Char} {cs : List Char} (h : isNamePart c = false) :
    Delimited (c :: cs) := by
  intro d hd
  cases hd
  exact h

/-! ## Blanks and line ends -/

theorem piece_of_isSpacing {c : Char} (h : isSpacing c) (rest : List Char) :
    piece c rest = .ok ⟨none, (rest.takeWhile isSpacing).length⟩ := by
  rw [piece, if_pos h]

/-- A text may be preceded by any number of blanks, as they are taken together. -/
theorem Scans.space {cs : List Char} {ls : List Lexeme} (h : Scans cs ls) :
    Scans (' ' :: cs) ls := by
  have hspace : isSpacing ' ' := by decide
  have alone {rest : List Char} {ls : List Lexeme} (hrest : Scans rest ls)
      (hhead : rest.takeWhile isSpacing = []) : Scans (' ' :: rest) ls := by
    refine .blank [] ?_ hrest
    rw [piece_of_isSpacing hspace, List.nil_append, hhead]
  cases h with
  | nil => exact alone .nil rfl
  | @lexeme c rest l ls more hpiece hrest =>
      refine alone (.lexeme more hpiece hrest) (List.takeWhile_cons_of_neg fun hc => ?_)
      rw [piece_of_isSpacing hc] at hpiece
      exact nomatch hpiece
  | @blank c rest ls more hpiece hrest =>
      by_cases hc : isSpacing c
      -- A piece of blanks takes in the blanks that were a piece before.
      · refine .blank (c :: more) ?_ hrest
        rw [piece_of_isSpacing hc] at hpiece
        rw [piece_of_isSpacing hspace, List.cons_append, List.takeWhile_cons_of_pos hc]
        injection hpiece with hpiece
        injection hpiece with _ hlength
        rw [List.length_cons, hlength, List.length_cons]
      · exact alone (.blank more hpiece hrest) (List.takeWhile_cons_of_neg hc)

theorem Scans.newline {cs : List Char} {ls : List Lexeme} (h : Scans cs ls) :
    Scans ('\n' :: cs) (.newline :: ls) :=
  .lexeme [] (by rfl) h

/-! ## Signs -/

theorem piece_of_sign {c : Char} {rest : List Char} {p : Piece}
    (hc : c ∉ [' ', '\t', '\r', '\n', ';', '#']) (h : sign? c rest = some p) :
    piece c rest = .ok p := by
  simp only [List.mem_cons, List.not_mem_nil, or_false, not_or] at hc
  obtain ⟨hspace, htab, hreturn, hnewline, hsemicolon, hhash⟩ := hc
  have hspacing : isSpacing c = false := by simp [isSpacing, hspace, htab, hreturn]
  rw [piece, if_neg (by simp [hspacing]), if_neg (by simp [hnewline, hsemicolon]), if_neg hhash, h]

theorem Scans.sign {c : Char} {l : Lexeme} {cs : List Char} {ls : List Lexeme}
    (hc : c ∉ [' ', '\t', '\r', '\n', ';', '#']) (hl : single? c = some l)
    (hpair : cs.head?.bind (pair? c) = none) (h : Scans cs ls) : Scans (c :: cs) (l :: ls) := by
  refine .lexeme [] (piece_of_sign hc ?_) h
  rw [sign?, List.nil_append, hpair, hl]
  rfl

theorem Scans.pair {c d : Char} {l : Lexeme} {cs : List Char} {ls : List Lexeme}
    (hc : c ∉ [' ', '\t', '\r', '\n', ';', '#']) (hl : pair? c d = some l) (h : Scans cs ls) :
    Scans (c :: d :: cs) (l :: ls) := by
  refine .lexeme [d] (piece_of_sign hc ?_) h
  rw [sign?, List.cons_append, List.head?_cons, Option.bind_some, hl]
  rfl

/-! ## Names and keywords -/

theorem single?_of_isNamePart {c : Char} (h : isNamePart c) : single? c = none := by
  unfold single?
  split
  case h_17 => rfl
  all_goals exact absurd h (by decide)

theorem pair?_of_isNamePart {c : Char} (h : isNamePart c) (d : Char) : pair? c d = none := by
  unfold pair?
  split
  case h_8 => rfl
  all_goals exact absurd h (by decide)

theorem piece_of_isNamePart {c : Char} (h : isNamePart c) (rest : List Char) :
    piece c rest =
      if isDecimalDigit c then number (c :: rest)
      else if isNameStart c then
        .ok ⟨some (nameOrKeyword (String.ofList (c :: rest.takeWhile isNamePart))),
          (rest.takeWhile isNamePart).length⟩
      else .error (.fault (.unexpectedCharacter c) 0) := by
  have hne {d : Char} (hd : isNamePart d = false) : c ≠ d := by
    rintro rfl
    rw [h] at hd
    exact nomatch hd
  have hsign : sign? c rest = none := by
    have hpair : rest.head?.bind (pair? c) = none := by
      cases rest with
      | nil => rfl
      | cons d _ => exact pair?_of_isNamePart h d
    rw [sign?, hpair, single?_of_isNamePart h]
    rfl
  have hspacing : isSpacing c = false := by
    have hspace : c ≠ ' ' := hne (by decide)
    have htab : c ≠ '\t' := hne (by decide)
    have hreturn : c ≠ '\r' := hne (by decide)
    simp [isSpacing, hspace, htab, hreturn]
  have hnewline : c ≠ '\n' := hne (by decide)
  have hsemicolon : c ≠ ';' := hne (by decide)
  have hhash : c ≠ '#' := hne (by decide)
  have hdouble : c ≠ '"' := hne (by decide)
  have hsingle : c ≠ '\'' := hne (by decide)
  rw [piece, if_neg (by simp [hspacing]), if_neg (by simp [hnewline, hsemicolon]), if_neg hhash,
    hsign]
  simp only [if_neg hdouble, if_neg hsingle]

theorem takeWhile_of_delimited {p : Char → Bool} {cs rest : List Char} (hcs : ∀ c ∈ cs, p c)
    (hp : ∀ c, p c → isNamePart c) (hrest : Delimited rest) :
    (cs ++ rest).takeWhile p = cs := by
  have hstop : rest.takeWhile p = [] := by
    cases rest with
    | nil => rfl
    | cons d rest =>
        refine List.takeWhile_cons_of_neg fun hd => ?_
        have hname := hp d hd
        rw [hrest d rfl] at hname
        exact nomatch hname
  rw [List.takeWhile_append_of_pos hcs, hstop, List.append_nil]

theorem isDecimalDigit_of_isNameStart {c : Char} (h : isNameStart c) :
    isDecimalDigit c = false := by
  simp only [isNameStart, Bool.or_eq_true, Bool.and_eq_true, decide_eq_true_eq, beq_iff_eq,
    Char.le_def, UInt32.le_iff_toNat_le] at h
  simp only [isDecimalDigit, Bool.and_eq_false_iff, decide_eq_false_iff_not, Char.le_def,
    UInt32.le_iff_toNat_le]
  rcases h with (rfl | h) | h
  · decide
  · right
    have hlow : ('a' : Char).val.toNat = 97 := rfl
    have hnine : ('9' : Char).val.toNat = 57 := rfl
    omega
  · right
    have hlow : ('A' : Char).val.toNat = 65 := rfl
    have hnine : ('9' : Char).val.toNat = 57 := rfl
    omega

theorem Scans.word {x : String} {c : Char} {cs rest : List Char} {ls : List Lexeme}
    (hx : x.toList = c :: cs) (hc : isNameStart c) (hcs : cs.all isNamePart)
    (hrest : Delimited rest) (h : Scans rest ls) :
    Scans (x.toList ++ rest) (nameOrKeyword x :: ls) := by
  have hpart : isNamePart c := by simp [isNamePart, hc]
  have hdigit := isDecimalDigit_of_isNameStart hc
  have htail : (cs ++ rest).takeWhile isNamePart = cs :=
    takeWhile_of_delimited (List.all_eq_true.mp hcs) (fun _ hd => hd) hrest
  have hname : String.ofList (c :: cs) = x := by
    rw [← hx, String.ofList_toList]
  rw [hx, List.cons_append]
  refine .lexeme _ ?_ h
  rw [piece_of_isNamePart hpart, hdigit, if_neg Bool.false_ne_true, if_pos hc, htail, hname]

theorem spelled_of_isName {x : String} (hx : isName x) :
    ∃ c cs, x.toList = c :: cs ∧ isNameStart c ∧ (∀ d ∈ cs, isNamePart d) ∧
      (Keyword.ofSpelling? x).isNone := by
  unfold isName at hx
  split at hx
  next => cases hx
  next c cs hlist =>
    simp only [Bool.and_eq_true, List.all_eq_true] at hx
    exact ⟨c, cs, hlist, hx.1.1, hx.1.2, hx.2⟩

theorem Scans.name {x : String} {rest : List Char} {ls : List Lexeme} (hx : isName x)
    (hrest : Delimited rest) (h : Scans rest ls) : Scans (x.toList ++ rest) (.name x :: ls) := by
  obtain ⟨c, cs, hlist, hc, hcs, hkeyword⟩ := spelled_of_isName hx
  have hword := Scans.word hlist hc (List.all_eq_true.mpr hcs) hrest h
  rw [nameOrKeyword, Option.isNone_iff_eq_none.mp hkeyword] at hword
  exact hword

theorem Scans.keyword (k : Keyword) {rest : List Char} {ls : List Lexeme}
    (hrest : Delimited rest) (h : Scans rest ls) :
    Scans (k.spelling.toList ++ rest) (.keyword k :: ls) := by
  cases k <;> exact Scans.word rfl (by decide) (by decide) hrest h

/-! ## Numbers -/

theorem isDecimalDigit_of_isDigit {c : Char} (h : c.isDigit) : isDecimalDigit c := by
  simp only [Char.isDigit, Bool.and_eq_true, decide_eq_true_eq] at h
  simp only [isDecimalDigit, Bool.and_eq_true, decide_eq_true_eq, Char.le_def]
  exact h

theorem isNamePart_of_isDecimalDigit {c : Char} (h : isDecimalDigit c) : isNamePart c := by
  simp [isNamePart, h]

theorem digits_eq {base skip : Nat} {isDigit : Char → Bool} {mark : String}
    {body rest : List Char} (hbody : ∀ c ∈ body, isDigit c || c == '_')
    (hsome : body.filter (· != '_') ≠ []) (hpart : ∀ c, isDigit c → isNamePart c)
    (hrest : Delimited rest) : digits base isDigit mark skip (body ++ rest) =
      match Text.convert? base (body.filter (· != '_')) with
      | some n => .ok ⟨some (.number n), skip + body.length - 1⟩
      | none => .error .tooManyDigits := by
  have hrun : (body ++ rest).takeWhile (fun c => isDigit c || c == '_') = body := by
    refine takeWhile_of_delimited hbody (fun c hc => ?_) hrest
    rcases Bool.or_eq_true_iff.mp hc with hc | hc
    · exact hpart c hc
    · rw [beq_iff_eq.mp hc]
      decide
  have hempty : (body.filter (· != '_')).isEmpty = false := List.isEmpty_eq_false_iff.mpr hsome
  have hstop : rest.head?.filter isNamePart = none := by
    cases rest with
    | nil => rfl
    | cons c rest => simp [hrest c rfl]
  rw [digits]
  simp only [hrun, hempty, Bool.false_eq_true, if_false, List.drop_left, hstop]
  cases Text.convert? base (body.filter (· != '_')) <;> rfl

theorem digits_decimal {ds rest : List Char} {n : Nat} (mark : String) (hne : ds ≠ [])
    (hds : ∀ c ∈ ds, c.isDigit) (hn : Text.convert? 10 ds = some n) (hrest : Delimited rest) :
    digits 10 isDecimalDigit mark 0 (ds ++ rest) = .ok ⟨some (.number n), ds.length - 1⟩ := by
  have hbody (c : Char) (hc : c ∈ ds) : isDecimalDigit c || c == '_' := by
    simp [isDecimalDigit_of_isDigit (hds c hc)]
  have hfilter : ds.filter (· != '_') = ds := by
    refine List.filter_eq_self.mpr fun c hc => ?_
    have hdigit := hds c hc
    simp only [bne_iff_ne, ne_eq]
    rintro rfl
    exact absurd hdigit (by decide)
  rw [digits_eq hbody (by rwa [hfilter]) (fun _ => isNamePart_of_isDecimalDigit) hrest,
    hfilter, hn, Nat.zero_add]

theorem number_decimal {ds rest : List Char} {n : Nat} (hne : ds ≠ [])
    (hds : ∀ c ∈ ds, c.isDigit) (hn : Text.convert? 10 ds = some n) (hrest : Delimited rest) :
    number (ds ++ rest) = .ok ⟨some (.number n), ds.length - 1⟩ := by
  have hbase {c : Char} {cs : List Char} (h : ds ++ rest = '0' :: c :: cs) :
      c ≠ 'x' ∧ c ≠ 'X' ∧ c ≠ 'b' ∧ c ≠ 'B' := by
    have hsecond : c.isDigit ∨ isNamePart c = false := by
      match ds, h with
      | [d], h =>
          obtain ⟨-, hrest'⟩ := List.cons.inj h
          have hhead : rest = c :: cs := hrest'
          exact .inr (hrest c (by rw [hhead]; rfl))
      | d :: e :: ds, h =>
          obtain ⟨-, htail⟩ := List.cons.inj h
          obtain ⟨rfl, -⟩ := List.cons.inj htail
          exact .inl (hds e (by simp))
    refine ⟨?_, ?_, ?_, ?_⟩ <;>
      · rintro rfl
        exact absurd hsecond (by decide)
  unfold number
  split
  case h_5 => exact digits_decimal _ hne hds hn hrest
  all_goals
    rename_i h
    have hsecond := hbase h
    simp at hsecond

theorem Scans.number {n : Nat} (hn : n < Word.count) {rest : List Char} {ls : List Lexeme}
    (hrest : Delimited rest) (h : Scans rest ls) :
    Scans ((Text.decimal n).toList ++ rest) (.number n :: ls) := by
  have hlimit : n < 10 ^ Text.digitLimit :=
    calc
      n < Word.count := hn
      _ ≤ 10 ^ 10 := by decide
      _ ≤ 10 ^ Text.digitLimit := Nat.pow_le_pow_right (by decide) (by decide)
  have hds (c : Char) (hc : c ∈ Nat.toDigits 10 n) : c.isDigit :=
    Nat.isDigit_of_mem_toDigits (by omega) (by omega) hc
  have hnumber := number_decimal Nat.toDigits_ne_nil hds (Text.convert?_decimal hlimit) hrest
  rw [Text.decimal, String.toList_ofList]
  cases hlist : Nat.toDigits 10 n with
  | nil => exact absurd hlist Nat.toDigits_ne_nil
  | cons d ds =>
      rw [hlist] at hnumber hds
      have hd := isDecimalDigit_of_isDigit (hds d (by simp))
      refine .lexeme _ ?_ h
      rw [piece_of_isNamePart (isNamePart_of_isDecimalDigit hd), if_pos hd, ← List.cons_append,
        hnumber]
      rfl

/-! ## Strings -/

theorem stringFrom_escape (offset : Nat) (c : Char) (cs : List Char) :
    stringFrom offset (Text.escape c ++ cs) =
      (stringFrom (offset + (Text.escape c).length) cs).map fun (s, close) => (c :: s, close) := by
  unfold Text.escape
  split
  case h_7 hnewline _ _ _ hbackslash hquote =>
    rw [List.singleton_append, stringFrom]
    · rfl
    · exact hquote
    · exact hnewline
    · exact fun h => absurd h hbackslash
    · exact fun e rest h => absurd h hbackslash
  all_goals rfl

theorem stringFrom_literal (offset : Nat) (s rest : List Char) :
    stringFrom offset (s.flatMap Text.escape ++ '"' :: rest) =
      .ok (s, offset + (s.flatMap Text.escape).length) := by
  induction s generalizing offset with
  | nil => rfl
  | cons c s ih =>
      rw [List.flatMap_cons, List.append_assoc, stringFrom_escape, ih, List.length_append,
        Nat.add_assoc]
      rfl

theorem Scans.string (s : String) {rest : List Char} {ls : List Lexeme} (h : Scans rest ls) :
    Scans ((Text.literal s).toList ++ rest) (.string s :: ls) := by
  have htext : (Text.literal s).toList ++ rest =
      '"' :: ((s.toList.flatMap Text.escape ++ ['"']) ++ rest) := by
    simp [Text.literal]
  have hsign (cs : List Char) : sign? '"' cs = none := by
    cases cs <;> rfl
  rw [htext]
  refine .lexeme _ ?_ h
  rw [piece, if_neg (by decide), if_neg (by decide), if_neg (by decide), hsign,
    List.append_assoc, List.singleton_append, stringFrom_literal]
  rw [List.length_append, List.length_singleton, Nat.add_comm]
  change (.ok ⟨some (.string (String.ofList s.toList)), _⟩ : Except Refusal Piece) = _
  rw [String.ofList_toList]

end Token

end BrownLang
