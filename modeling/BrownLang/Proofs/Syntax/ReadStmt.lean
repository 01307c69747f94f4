import BrownLang.Proofs.Syntax.ReadExpr
import BrownLang.Stmt.Read

/-!
# Reading statements back

Tokens that spell a well-formed block are read as a block that says the same,
up to a token with which the enclosing block ends.
-/

namespace BrownLang.Stmt

open Reader

/-! ## Line ends and the ends of blocks -/

/-- A block with this ending is over where these lexemes come next. -/
def Stops (ending : Ending) (ls : List Lexeme) : Prop :=
  ending.stopsAt ((ls.head?.map Lexeme.kind).getD .eof)

theorem closed_newline (ls : List Lexeme) : Expr.Closed (.newline :: ls) :=
  .cons rfl

theorem not_stopsAt_newline (ending : Ending) : ending.stopsAt .newline = false := by
  cases ending <;> rfl

theorem lineEnd_of_newline {ending : Ending} {ts : List Token} {ls : List Lexeme}
    (h : ts.map Token.lexeme = .newline :: ls) : lineEnd ending ts = .ok () := by
  obtain ⟨p, rest, rfl, -⟩ := spell_cons h
  simp [lineEnd, kindAt, Lexeme.kind]

theorem reads_readBlock_of_stops {o : Origin} {ending : Ending} {ts : List Token}
    (h : Stops ending (ts.map Token.lexeme)) :
    Reads (readBlock o ending ts) [] (ts.map Token.lexeme) := by
  refine ⟨ts, Nat.le_refl _, ?_, rfl⟩
  unfold readBlock
  cases ts with
  | nil =>
      cases ending with
      | file => rfl
      | body => exact nomatch h
      | branch => exact nomatch h
  | cons t rest =>
      have hstop : ending.stopsAt t.lexeme.kind = true := h
      simp only [hstop, if_true]
      rfl

theorem reads_readBlock_newline {o : Origin} {ending : Ending} {p : Position} {ts : List Token}
    {b : Block} {ls : List Lexeme} :
    Reads (readBlock o ending (⟨.newline, p⟩ :: ts)) b ls ↔ Reads (readBlock o ending ts) b ls := by
  rw [readBlock]
  simp only [Lexeme.kind, not_stopsAt_newline, Bool.false_eq_true, if_false, if_true]
  constructor
  · rintro ⟨rest, hle, hread, hrest⟩
    cases hts : readBlock o ending ts with
    | error e =>
        rw [hts] at hread
        cases hread
    | ok r =>
        rw [hts] at hread
        obtain ⟨b', last, hle'⟩ := r
        cases hread
        exact ⟨last, hle', rfl, hrest⟩
  · rintro ⟨rest, hle, hread, hrest⟩
    rw [hread]
    exact ⟨rest, Nat.le_succ_of_le hle, rfl, hrest⟩

def begins : Lexeme → Bool
  | .keyword .kwIf | .keyword .kwWhile | .keyword .kwFor | .keyword .kwFun
  | .keyword .kwGoto => true
  | l => Expr.begins l

theorem lexemes_begins (s : Stmt) : ∃ l ls, s.lexemes = l :: ls ∧ begins l := by
  have hexpr (l : Lexeme) (h : Expr.begins l) : begins l := by
    unfold begins
    split <;> first | rfl | exact h
  cases s with
  | assign t e =>
      obtain ⟨l, ls, he, hl⟩ := e.lexemes_begins
      exact ⟨l, ls ++ .punct .arrow :: t.lexemes, by rw [lexemes, he]; rfl, hexpr l hl⟩
  | eval e =>
      obtain ⟨l, ls, he, hl⟩ := e.lexemes_begins
      exact ⟨l, ls, he, hexpr l hl⟩
  | _ => exact ⟨_, _, rfl, rfl⟩

theorem ne_newline_of_begins {l : Lexeme} (h : begins l) : l ≠ .newline := by
  rintro rfl
  cases h

theorem not_stopsAt_of_begins {ending : Ending} {l : Lexeme} (h : begins l) :
    ending.stopsAt l.kind = false := by
  cases l with
  | keyword k =>
      cases k with
      | kwEnd => exact nomatch h
      | kwElse => exact nomatch h
      | _ => cases ending <;> rfl
  | _ => cases ending <;> rfl

theorem reads_readBlock_cons {o : Origin} {ending : Ending} {ts r : List Token} {l : Lexeme}
    {s : Stmt} {b : Block} {ls₀ ls₁ ls : List Lexeme} {hlt : r.length < ts.length}
    (hts : ts.map Token.lexeme = l :: ls₀) (hl : begins l) (hread : read o ts = .ok (s, ⟨r, hlt⟩))
    (hr : r.map Token.lexeme = .newline :: ls₁) (hb : Reads (readBlock o ending r) b ls) :
    Reads (readBlock o ending ts) (s :: b) ls := by
  obtain ⟨last, hle, hblock, hlast⟩ := hb
  obtain ⟨p, tail, rfl, -⟩ := spell_cons hts
  refine ⟨last, Nat.le_trans hle (Nat.le_of_lt hlt), ?_, hlast⟩
  rw [readBlock]
  simp only [not_stopsAt_of_begins hl, Bool.false_eq_true, if_false, ne_newline_of_begins hl, hread,
    lineEnd_of_newline hr, bind, Except.bind, hblock]
  rfl

/-! ## Parameters -/

theorem reads_paramsFrom (before ps : List String) (hne : ps ≠ [])
    (hps : (before ++ ps).Nodup) {ts : List Token} {ls : List Lexeme}
    (h : ts.map Token.lexeme = Expr.argLexemes (ps.map .var) ++ .punct .rparen :: ls) :
    Reads (paramsFrom before ts) (before ++ ps) ls := by
  induction ps generalizing before ts with
  | nil => exact absurd rfl hne
  | cons x more ih =>
      have hx : x ∉ before := fun hmem => (List.nodup_append.mp hps).2.2 x hmem x (by simp) rfl
      cases more with
      | nil =>
          obtain ⟨p, rest, rfl, hrest⟩ := spell_cons h
          obtain ⟨q, last, rfl, hlast⟩ := spell_cons hrest
          refine ⟨last, ?_, ?_, hlast⟩
          · simp only [List.length_cons]
            omega
          · exact if_neg hx
      | cons y more =>
          obtain ⟨p, rest, rfl, hrest⟩ := spell_cons h
          obtain ⟨q, last, rfl, hlast⟩ := spell_cons hrest
          rw [List.append_cons] at hps ⊢
          obtain ⟨r, hlt, hread, hr⟩ := ih (before ++ [x]) (by simp) hps hlast
          refine ⟨r, ?_, (if_neg hx).trans ?_, hr⟩
          · simp only [List.length_cons]
            omega
          · rw [hread]
            rfl

theorem reads_params {ps : List String} (hps : ps.Nodup) {ts : List Token} {ls : List Lexeme}
    (h : ts.map Token.lexeme =
      .punct .lparen :: (Expr.argLexemes (ps.map .var) ++ .punct .rparen :: ls)) :
    Reads (params ts) ps ls := by
  obtain ⟨p, rest, rfl, hrest⟩ := spell_cons h
  cases ps with
  | nil =>
      obtain ⟨q, last, rfl, hlast⟩ := spell_cons hrest
      unfold params
      exact ⟨last, _, rfl, hlast⟩
  | cons x more =>
      obtain ⟨last, hlt, hread, hlast⟩ :=
        reads_paramsFrom [] (x :: more) (by simp) hps hrest
      have hhead : ∃ q tail, rest = ⟨.name x, q⟩ :: tail := by
        cases more with
        | nil =>
            obtain ⟨q, tail, rfl, -⟩ := spell_cons hrest
            exact ⟨q, tail, rfl⟩
        | cons y more =>
            obtain ⟨q, tail, rfl, -⟩ := spell_cons hrest
            exact ⟨q, tail, rfl⟩
      obtain ⟨q, tail, rfl⟩ := hhead
      refine ⟨last, Nat.lt_succ_of_lt hlt, ?_, hlast⟩
      unfold params
      simp only [expect, Lexeme.kind, if_true, bind, Except.bind, hread]
      rfl

theorem preserveMark_of_keep {keep : Bool} {ts : List Token} {ls : List Lexeme}
    (h : ts.map Token.lexeme =
      (if keep then [.keyword .kwPreserve] else []) ++ .newline :: ls) :
    (preserveMark ts).1 = keep ∧ (preserveMark ts).2.val.map Token.lexeme = .newline :: ls := by
  cases keep with
  | true =>
      obtain ⟨p, rest, rfl, hrest⟩ := spell_cons h
      exact ⟨rfl, hrest⟩
  | false =>
      obtain ⟨p, rest, rfl, -⟩ := spell_cons h
      exact ⟨rfl, h⟩

/-! ## Statements without a keyword -/

theorem read_of_expr {o : Origin} (e : Expr) {ts : List Token} {l : Lexeme} {ls : List Lexeme}
    (h : ts.map Token.lexeme = e.lexemes ++ l :: ls) (hl : l ≠ .punct .colon) :
    read o ts = simple o ts := by
  unfold read
  cases e with
  | var x =>
      obtain ⟨p, rest, rfl, hrest⟩ := spell_cons h
      obtain ⟨q, last, rfl, -⟩ := spell_cons hrest
      cases l with
      | punct s =>
          cases s with
          | colon => exact absurd rfl hl
          | _ => rfl
      | _ => rfl
  | byte a =>
      obtain ⟨p, rest, rfl, hrest⟩ := spell_cons h
      obtain ⟨q, last, rfl, -⟩ := spell_cons hrest
      rfl
  | call f args =>
      obtain ⟨p, rest, rfl, hrest⟩ := spell_cons h
      obtain ⟨q, last, rfl, -⟩ := spell_cons hrest
      rfl
  | _ =>
      obtain ⟨p, rest, rfl, -⟩ := spell_cons h
      rfl

theorem reads_simple_assign {o : Origin} {t : Target} {e : Expr} (ht : t.wellFormed)
    (he : e.wellFormed) {ts : List Token} {ls : List Lexeme}
    (h : ts.map Token.lexeme = e.lexemes ++ .punct .arrow :: (t.lexemes ++ .newline :: ls)) :
    ∃ loc, Reads (simple o ts) (.assign t e loc) (.newline :: ls) := by
  obtain ⟨r, hlt, hread, hr⟩ := Expr.reads_read he h (.cons rfl)
  obtain ⟨q, rest, rfl, hrest⟩ := spell_cons hr
  obtain ⟨last, hlt', hread', hlast⟩ := Target.reads_read ht hrest (closed_newline ls).calm
  unfold simple
  simp only [hread, bind, Except.bind, hread']
  exact ⟨_, last, _, rfl, hlast⟩

theorem reads_simple_eval {o : Origin} {f : String} {args : List Expr}
    (he : (Expr.call f args).wellFormed) {ts : List Token} {ls : List Lexeme}
    (h : ts.map Token.lexeme = (Expr.call f args).lexemes ++ .newline :: ls) :
    ∃ loc, Reads (simple o ts) (.eval (.call f args) loc) (.newline :: ls) := by
  obtain ⟨r, hlt, hread, hr⟩ := Expr.reads_read he h (closed_newline ls)
  obtain ⟨q, rest, rfl, hrest⟩ := spell_cons hr
  unfold simple
  simp only [hread]
  exact ⟨_, _, _, rfl, hr⟩

/-! ## Blocks -/

mutual

theorem reads_read (o : Origin) (s : Stmt) (hs : s.wellFormed) {ts : List Token}
    {ls : List Lexeme} (h : ts.map Token.lexeme = s.lexemes ++ .newline :: ls) :
    ∃ s', Reads (read o ts) s' (.newline :: ls) ∧ s'.unlocated = s.unlocated := by
  -- The line end after a header belongs to the block, which is read from there on.
  match s with
  | assign t e _ =>
      obtain ⟨ht, he⟩ := Bool.and_eq_true_iff.mp hs
      simp only [lexemes, List.append_assoc, List.cons_append] at h
      obtain ⟨loc, hread⟩ := reads_simple_assign (o := o) ht he h
      rw [read_of_expr e h (by simp)]
      exact ⟨_, hread, rfl⟩
  | eval e _ =>
      obtain ⟨hcall, he⟩ := Bool.and_eq_true_iff.mp hs
      cases e with
      | call f args =>
          obtain ⟨loc, hread⟩ := reads_simple_eval (o := o) he h
          rw [read_of_expr (.call f args) h (by simp)]
          exact ⟨_, hread, rfl⟩
      | _ => exact nomatch hcall
  | goto l _ =>
      obtain ⟨p, rest, rfl, hrest⟩ := spell_cons h
      obtain ⟨q, last, rfl, hlast⟩ := spell_cons hrest
      unfold read
      exact ⟨_, ⟨last, _, rfl, hlast⟩, rfl⟩
  | label l _ =>
      obtain ⟨p, rest, rfl, hrest⟩ := spell_cons h
      obtain ⟨q, last, rfl, hlast⟩ := spell_cons hrest
      unfold read
      exact ⟨_, ⟨last, _, rfl, hlast⟩, rfl⟩
  | ifThen c yes _ =>
      obtain ⟨hc, hyes⟩ := Bool.and_eq_true_iff.mp hs
      simp only [lexemes, List.append_assoc, List.cons_append, List.nil_append] at h
      obtain ⟨p, rest, rfl, hrest⟩ := spell_cons h
      obtain ⟨r, hlt, hread, hr⟩ := Expr.reads_read hc hrest (closed_newline _)
      obtain ⟨yes', ⟨r₁, hle₁, hread₁, hr₁⟩, hsame⟩ := reads_lines o .branch yes hyes hr rfl
      obtain ⟨q, last, rfl, hlast⟩ := spell_cons hr₁
      unfold read
      simp only [hread, bind, Except.bind, hread₁]
      exact ⟨_, ⟨last, _, rfl, hlast⟩, by simp only [unlocated, hsame]⟩
  | ifElse c yes no _ =>
      simp only [wellFormed, Bool.and_eq_true] at hs
      simp only [lexemes, List.append_assoc, List.cons_append, List.nil_append] at h
      obtain ⟨p, rest, rfl, hrest⟩ := spell_cons h
      obtain ⟨r, hlt, hread, hr⟩ := Expr.reads_read hs.1.1 hrest (closed_newline _)
      obtain ⟨yes', ⟨r₁, hle₁, hread₁, hr₁⟩, hyes⟩ := reads_lines o .branch yes hs.1.2 hr rfl
      obtain ⟨q, r₂, rfl, hr₂⟩ := spell_cons hr₁
      obtain ⟨no', ⟨r₃, hle₃, hread₃, hr₃⟩, hno⟩ := reads_lines o .body no hs.2 hr₂ rfl
      obtain ⟨q', last, rfl, hlast⟩ := spell_cons hr₃
      unfold read
      simp only [hread, bind, Except.bind, hread₁, hread₃, expect]
      exact ⟨_, ⟨last, _, rfl, hlast⟩, by simp only [unlocated, hyes, hno]⟩
  | whileLoop c body _ =>
      obtain ⟨hc, hbody⟩ := Bool.and_eq_true_iff.mp hs
      simp only [lexemes, List.append_assoc, List.cons_append, List.nil_append] at h
      obtain ⟨p, rest, rfl, hrest⟩ := spell_cons h
      obtain ⟨r, hlt, hread, hr⟩ := Expr.reads_read hc hrest (closed_newline _)
      obtain ⟨body', ⟨r₁, hle₁, hread₁, hr₁⟩, hsame⟩ := reads_lines o .body body hbody hr rfl
      obtain ⟨q, last, rfl, hlast⟩ := spell_cons hr₁
      unfold read
      simp only [hread, bind, Except.bind, hread₁, expect]
      exact ⟨_, ⟨last, _, rfl, hlast⟩, by simp only [unlocated, hsame]⟩
  | forLoop x a b body _ =>
      simp only [wellFormed, Bool.and_eq_true] at hs
      simp only [lexemes, List.append_assoc, List.cons_append, List.nil_append] at h
      obtain ⟨p, name, rfl, hname⟩ := spell_cons h
      obtain ⟨p₁, start, rfl, hstart⟩ := spell_cons hname
      obtain ⟨p₂, first, rfl, hfirst⟩ := spell_cons hstart
      obtain ⟨r, hlt, hread, hr⟩ :=
        Expr.reads_read hs.1.1.2 hfirst (.cons rfl)
      obtain ⟨p₃, bound, rfl, hbound⟩ := spell_cons hr
      obtain ⟨r₁, hlt₁, hread₁, hr₁⟩ := Expr.reads_read hs.1.2 hbound (closed_newline _)
      obtain ⟨body', ⟨r₂, hle₂, hread₂, hr₂⟩, hsame⟩ := reads_lines o .body body hs.2 hr₁ rfl
      obtain ⟨q, last, rfl, hlast⟩ := spell_cons hr₂
      unfold read
      simp only [expectName, expect, Lexeme.kind, if_true, bind, Except.bind, hread, hread₁,
        hread₂]
      exact ⟨_, ⟨last, _, rfl, hlast⟩, by simp only [unlocated, hsame]⟩
  | function f ps keep body _ =>
      simp only [wellFormed, Bool.and_eq_true, decide_eq_true_eq] at hs
      simp only [lexemes, List.append_assoc, List.cons_append, List.nil_append] at h
      obtain ⟨p, name, rfl, hname⟩ := spell_cons h
      obtain ⟨p₁, opening, rfl, hopening⟩ := spell_cons hname
      obtain ⟨r, hlt, hread, hr⟩ := reads_params hs.1.2 hopening
      obtain ⟨hkeep, hr₁⟩ := preserveMark_of_keep hr
      obtain ⟨body', ⟨r₂, hle₂, hread₂, hr₂⟩, hsame⟩ := reads_lines o .body body hs.2 hr₁ rfl
      obtain ⟨q, last, rfl, hlast⟩ := spell_cons hr₂
      unfold read
      simp only [expectName, bind, Except.bind, hread, hkeep, hread₂, expect]
      exact ⟨_, ⟨last, _, rfl, hlast⟩, by simp only [unlocated, hsame]⟩

/-- The tokens of a block after a line end, up to the end of the enclosing one. -/
theorem reads_lines (o : Origin) (ending : Ending) (b : Block) (hb : wellFormedAll b)
    {ts : List Token} {ls : List Lexeme}
    (h : ts.map Token.lexeme = .newline :: (lexemesAll b ++ ls)) (hls : Stops ending ls) :
    ∃ b', Reads (readBlock o ending ts) b' ls ∧ unlocatedAll b' = unlocatedAll b := by
  obtain ⟨p, rest, rfl, hrest⟩ := spell_cons h
  match b with
  | [] =>
      have hls' : rest.map Token.lexeme = ls := hrest
      subst hls'
      exact ⟨[], reads_readBlock_newline.mpr (reads_readBlock_of_stops hls), rfl⟩
  | s :: more =>
      obtain ⟨hs, hmore⟩ := Bool.and_eq_true_iff.mp hb
      simp only [lexemesAll, List.append_assoc, List.cons_append] at hrest
      obtain ⟨s', ⟨r, hlt, hread, hr⟩, hsame⟩ := reads_read o s hs hrest
      obtain ⟨more', hread', hsame'⟩ := reads_lines o ending more hmore hr hls
      obtain ⟨l, ls₀, hl, hbegins⟩ := lexemes_begins s
      rw [hl] at hrest
      have hblock := reads_readBlock_cons hrest hbegins hread hr hread'
      refine ⟨s' :: more', reads_readBlock_newline.mpr hblock, ?_⟩
      simp only [unlocatedAll, hsame, hsame']

end

theorem reads_readBlock (o : Origin) (ending : Ending) (b : Block) (hb : wellFormedAll b)
    {ts : List Token} {ls : List Lexeme} (h : ts.map Token.lexeme = lexemesAll b ++ ls)
    (hls : Stops ending ls) :
    ∃ b', Reads (readBlock o ending ts) b' ls ∧ unlocatedAll b' = unlocatedAll b := by
  have hline : (Token.mk .newline .start :: ts).map Token.lexeme =
      .newline :: (lexemesAll b ++ ls) := by
    rw [List.map_cons, h]
  obtain ⟨b', hread, hsame⟩ := reads_lines o ending b hb hline hls
  exact ⟨b', reads_readBlock_newline.mp hread, hsame⟩

end BrownLang.Stmt
