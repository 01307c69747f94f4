import BrownLang.Instr.OfStmt
import BrownLang.Proofs.Syntax.Canonical
import BrownLang.Proofs.Syntax.Derivation
import BrownLang.Source.Parse

/-!
# What is read is well formed

The scanner makes only proper names, and what a reader answers has only names
and numbers that it has found.  So every source file that is read is well
formed: its operators are known, its names are names of the language, and its
expression statements are calls.  Lowering keeps this; only the labels that it
makes are no names of the language.
-/

namespace BrownLang

open Token (isName)

/-! ## Tokens -/

def Token.Named (ts : List Token) : Prop := ∀ t ∈ ts, ∀ x, t.lexeme = .name x → isName x

namespace Token.Named

variable {ts us rest : List Token}

theorem tail {t : Token} (h : Named (t :: ts)) : Named ts :=
  fun u hu => h u (List.mem_cons_of_mem _ hu)

theorem name {x : String} {p : Position} (h : Named (⟨.name x, p⟩ :: ts)) : isName x :=
  h _ List.mem_cons_self x rfl

theorem left (h : Named (ts ++ us)) : Named ts := fun t ht => h t (List.mem_append_left _ ht)

theorem right (h : Named (ts ++ us)) : Named us := fun t ht => h t (List.mem_append_right _ ht)

theorem of_expect {k : Kind} {hlt : rest.length < ts.length} (h : Named ts)
    (hread : Reader.expect k ts = .ok ⟨rest, hlt⟩) : Named rest := by
  obtain ⟨t, rfl, -⟩ := Reader.of_expect hread
  exact h.tail

theorem of_expectName {x : String} {hlt : rest.length < ts.length} (h : Named ts)
    (hread : Reader.expectName ts = .ok (x, ⟨rest, hlt⟩)) : isName x ∧ Named rest := by
  obtain ⟨p, rfl⟩ := Reader.of_expectName hread
  exact ⟨h.name, h.tail⟩

end Token.Named

open Token (Named)

/-! ## Expressions -/

namespace Expr

mutual

theorem Renders.wellFormed {b : Bool} {e : Expr} {ts : List Token} (h : Renders b e ts)
    (hts : Named ts) : e.wellFormed := by
  match h with
  | .lit hn => simpa [Expr.wellFormed] using hn
  | .var => exact hts.name
  | .addr => exact hts.tail.name
  | .word h => exact h.wellFormed hts.tail.left
  | .byte h => exact h.wellFormed hts.tail.tail.left
  | .call h =>
      rw [Expr.wellFormed, Bool.and_eq_true]
      exact ⟨hts.name, h.wellFormed hts.tail.tail.left⟩
  | .bin hl hr _ _ =>
      rw [Expr.wellFormed, Bool.and_eq_true, Bool.and_eq_true]
      exact ⟨⟨rfl, hl.wellFormed hts.left⟩, hr.wellFormed hts.right.tail⟩
  | .paren h => exact h.wellFormed hts.tail.left

theorem RendersArgs.wellFormed {es : List Expr} {ts : List Token} (h : RendersArgs es ts)
    (hts : Named ts) : wellFormedAll es := by
  match h with
  | .none => rfl
  | .one h =>
      rw [wellFormedAll, Bool.and_eq_true]
      exact ⟨h.wellFormed hts, rfl⟩
  | .more h hes =>
      rw [wellFormedAll, Bool.and_eq_true]
      exact ⟨h.wellFormed hts.left, hes.wellFormed hts.right.tail⟩

end

variable {ts rest : List Token} {hlt : rest.length < ts.length}

theorem wellFormed_of_read {e : Expr} (h : read ts = .ok (e, ⟨rest, hlt⟩)) (hts : Named ts) :
    e.wellFormed ∧ Named rest := by
  obtain ⟨b, pre, rfl, hpre, -⟩ := derives_read h
  exact ⟨hpre.wellFormed hts.left, hts.right⟩

theorem wellFormed_of_readBracketed {a : Expr} (h : readBracketed ts = .ok (a, ⟨rest, hlt⟩))
    (hts : Named ts) : a.wellFormed ∧ Named rest := by
  obtain ⟨⟨us, hus⟩, hopen, h⟩ := Reader.bind_eq_ok.mp h
  obtain ⟨⟨a', vs, hvs⟩, hread, h⟩ := Reader.bind_eq_ok.mp h
  obtain ⟨⟨ws, hws⟩, hclose, h⟩ := Reader.bind_eq_ok.mp h
  cases h
  have ha := wellFormed_of_read hread (hts.of_expect hopen)
  exact ⟨ha.1, ha.2.of_expect hclose⟩

end Expr

theorem Target.wellFormed_of_read {ts rest : List Token} {hlt : rest.length < ts.length}
    {t : Target} (h : read ts = .ok (t, ⟨rest, hlt⟩)) (hts : Named ts) :
    t.wellFormed ∧ Named rest := by
  unfold read at h
  split at h
  next =>
    obtain ⟨⟨a, us, hus⟩, hread, h⟩ := Reader.bind_eq_ok.mp h
    cases h
    exact Expr.wellFormed_of_readBracketed hread hts
  next =>
    obtain ⟨⟨a, us, hus⟩, hread, h⟩ := Reader.bind_eq_ok.mp h
    cases h
    exact Expr.wellFormed_of_readBracketed hread hts.tail
  next =>
    obtain ⟨⟨x, us, hus⟩, hread, h⟩ := Reader.bind_eq_ok.mp h
    cases h
    exact hts.of_expectName hread

/-! ## Statements -/

namespace Stmt

open Reader

open BrownLang.Expr (Leaves)

theorem paramsFrom_comma (before : List String) (x : String) (p q : Position) (more : List Token) :
    paramsFrom before (⟨.name x, p⟩ :: ⟨.punct .comma, q⟩ :: more) =
      if x ∈ before then .error ⟨.duplicateParameter x, some p⟩
      else paramsFrom (before ++ [x]) more >>= fun r =>
        .ok (r.1, ⟨r.2.1, Nat.lt_succ_of_lt (Nat.lt_succ_of_lt r.2.2)⟩) :=
  rfl

theorem paramsFrom_last (before : List String) (x : String) (p : Position) {us : List Token}
    (hus : ∀ q more, us ≠ ⟨.punct .comma, q⟩ :: more) :
    paramsFrom before (⟨.name x, p⟩ :: us) =
      if x ∈ before then .error ⟨.duplicateParameter x, some p⟩
      else expect (.punct .rparen) us >>= fun r =>
        .ok (before ++ [x], ⟨r.1, Nat.lt_succ_of_lt r.2⟩) := by
  cases us with
  | nil => rfl
  | cons t more =>
      obtain ⟨l, q⟩ := t
      cases l with
      | punct s =>
          cases s with
          | comma => exact absurd rfl (hus q more)
          | _ => rfl
      | _ => rfl

theorem paramsFrom_duplicate {before : List String} {x : String} (hx : x ∈ before) (p : Position)
    (us : List Token) :
    paramsFrom before (⟨.name x, p⟩ :: us) = .error ⟨.duplicateParameter x, some p⟩ := by
  by_cases hcomma : ∃ q more, us = ⟨.punct .comma, q⟩ :: more
  · obtain ⟨q, more, rfl⟩ := hcomma
    rw [paramsFrom_comma, if_pos hx]
  · rw [paramsFrom_last before x p fun q more heq => hcomma ⟨q, more, heq⟩, if_pos hx]

theorem paramsFrom_no_name (before : List String) {ts : List Token}
    (hts : ∀ x p us, ts ≠ ⟨.name x, p⟩ :: us) :
    paramsFrom before ts = failAt ts (.expected .name (kindAt ts)) := by
  cases ts with
  | nil => rfl
  | cons t us =>
      obtain ⟨l, p⟩ := t
      cases l with
      | name x => exact absurd rfl (hts x p us)
      | _ => rfl

theorem of_paramsFrom_name {before ps : List String} {x : String} {p : Position}
    {us rest : List Token} {hlt : rest.length < us.length + 1}
    (h : paramsFrom before (⟨.name x, p⟩ :: us) = .ok (ps, ⟨rest, hlt⟩)) :
    x ∉ before ∧
      ((∃ q more hlt', us = ⟨.punct .comma, q⟩ :: more ∧
        paramsFrom (before ++ [x]) more = .ok (ps, ⟨rest, hlt'⟩)) ∨
      (ps = before ++ [x] ∧ ∃ hlt', expect (.punct .rparen) us = .ok ⟨rest, hlt'⟩)) := by
  by_cases hcomma : ∃ q more, us = ⟨.punct .comma, q⟩ :: more
  · obtain ⟨q, more, rfl⟩ := hcomma
    rw [paramsFrom_comma] at h
    split at h
    next => cases h
    next hx =>
      obtain ⟨⟨ps', vs, hvs⟩, hread, hr⟩ := bind_eq_ok.mp h
      cases hr
      exact ⟨hx, .inl ⟨q, more, hvs, rfl, hread⟩⟩
  · rw [paramsFrom_last before x p fun q more heq => hcomma ⟨q, more, heq⟩] at h
    split at h
    next => cases h
    next hx =>
      obtain ⟨⟨vs, hvs⟩, hclose, hr⟩ := bind_eq_ok.mp h
      cases hr
      exact ⟨hx, .inr ⟨rfl, hvs, hclose⟩⟩

theorem wellFormed_of_paramsFrom {before ps : List String} {ts rest : List Token}
    {hlt : rest.length < ts.length} (h : paramsFrom before ts = .ok (ps, ⟨rest, hlt⟩))
    (hts : Named ts) (hnames : before.all isName) (hnodup : before.Nodup) :
    ps.all isName ∧ ps.Nodup ∧ Named rest := by
  match ts with
  | [] => cases h
  | ⟨.name x, p⟩ :: us =>
      obtain ⟨hx, hrest⟩ := of_paramsFrom_name h
      have hnames' : (before ++ [x]).all isName := by
        rw [List.all_append, hnames, List.all_cons, hts.name]
        rfl
      have hnodup' : (before ++ [x]).Nodup := by
        refine List.nodup_append.mpr ⟨hnodup, by simp, ?_⟩
        rintro y hy z hz rfl
        exact hx (List.mem_singleton.mp hz ▸ hy)
      rcases hrest with ⟨q, more, hlt', rfl, hread⟩ | ⟨rfl, hlt', hclose⟩
      · exact wellFormed_of_paramsFrom hread hts.tail.tail hnames' hnodup'
      · exact ⟨hnames', hnodup', hts.tail.of_expect hclose⟩
  | ⟨.number _, _⟩ :: _ | ⟨.string _, _⟩ :: _ | ⟨.keyword _, _⟩ :: _ | ⟨.operator _, _⟩ :: _
  | ⟨.punct _, _⟩ :: _ | ⟨.newline, _⟩ :: _ => cases h
termination_by ts.length

theorem wellFormed_of_params {ps : List String} {ts rest : List Token}
    {hlt : rest.length < ts.length} (h : params ts = .ok (ps, ⟨rest, hlt⟩)) (hts : Named ts) :
    ps.all isName ∧ ps.Nodup ∧ Named rest := by
  obtain ⟨⟨us, hus⟩, hopen, h⟩ := bind_eq_ok.mp h
  have hus' := hts.of_expect hopen
  dsimp only at h
  split at h
  next =>
    cases h
    exact ⟨rfl, .nil, hus'.tail⟩
  next =>
    obtain ⟨⟨ps', vs, hvs⟩, hread, h⟩ := bind_eq_ok.mp h
    cases h
    exact wellFormed_of_paramsFrom hread hus' rfl .nil

theorem named_of_preserveMark {ts : List Token} (hts : Named ts) :
    Named (preserveMark ts).2.1 := by
  unfold preserveMark
  split
  · exact hts.tail
  · exact hts

theorem wellFormed_of_simple {o : Origin} {s : Stmt} {ts rest : List Token}
    {hlt : rest.length < ts.length} (h : simple o ts = .ok (s, ⟨rest, hlt⟩)) (hts : Named ts) :
    s.wellFormed ∧ Named rest := by
  obtain ⟨⟨e, us, hus⟩, hread, h⟩ := bind_eq_ok.mp h
  have he := Expr.wellFormed_of_read hread hts
  dsimp only at h
  split at h
  next p us' _ =>
    obtain ⟨⟨t, vs, hvs⟩, htarget, h⟩ := bind_eq_ok.mp h
    cases h
    have ht := Target.wellFormed_of_read htarget he.2.tail
    exact ⟨by simp [wellFormed, ht.1, he.1], ht.2⟩
  next =>
    split at h
    next =>
      cases h
      exact ⟨by simp [wellFormed, Expr.isCall, he.1], he.2⟩
    next => cases h

mutual

theorem wellFormed_of_read {o : Origin} {s : Stmt} {ts rest : List Token}
    (h : Leaves (read o ts) s rest) (hts : Named ts) : s.wellFormed ∧ Named rest := by
  -- The measure speaks of `ts`, so the case split has to leave it alone.
  generalize hus : ts = us at h
  have hlen := congrArg List.length hus
  rw [hus] at hts
  obtain ⟨hlt, h⟩ := h
  unfold read at h
  split at h
  next p us =>
    obtain ⟨⟨c, us₁, h₁⟩, hcond, h⟩ := bind_eq_ok.mp h
    have hc := Expr.wellFormed_of_read hcond hts.tail
    obtain ⟨⟨yes, us₂, h₂⟩, hyes, h⟩ := bind_eq_ok.mp h
    have hy := wellFormed_of_readBlock ⟨_, hyes⟩ hc.2
    dsimp only at h
    split at h
    next q us₃ hle =>
      have hlt₃ : us₃.length < us₁.length := hle
      obtain ⟨⟨no, us₄, h₄⟩, hno, h⟩ := bind_eq_ok.mp h
      have hn := wellFormed_of_readBlock ⟨_, hno⟩ hy.2.tail
      obtain ⟨⟨us₅, h₅⟩, hend, h⟩ := bind_eq_ok.mp h
      cases h
      exact ⟨by simp [wellFormed, hc.1, hy.1, hn.1], hn.2.of_expect hend⟩
    next =>
      obtain ⟨⟨us₅, h₅⟩, hend, h⟩ := bind_eq_ok.mp h
      cases h
      exact ⟨by simp [wellFormed, hc.1, hy.1], hy.2.of_expect hend⟩
  next p us =>
    obtain ⟨⟨c, us₁, h₁⟩, hcond, h⟩ := bind_eq_ok.mp h
    have hc := Expr.wellFormed_of_read hcond hts.tail
    obtain ⟨⟨body, us₂, h₂⟩, hbody, h⟩ := bind_eq_ok.mp h
    have hb := wellFormed_of_readBlock ⟨_, hbody⟩ hc.2
    obtain ⟨⟨us₃, h₃⟩, hend, h⟩ := bind_eq_ok.mp h
    cases h
    exact ⟨by simp [wellFormed, hc.1, hb.1], hb.2.of_expect hend⟩
  next p us =>
    obtain ⟨⟨x, us₁, h₁⟩, hcounter, h⟩ := bind_eq_ok.mp h
    have hx := hts.tail.of_expectName hcounter
    obtain ⟨⟨us₂, h₂⟩, hfrom, h⟩ := bind_eq_ok.mp h
    obtain ⟨⟨a, us₃, h₃⟩, hfirst, h⟩ := bind_eq_ok.mp h
    have ha := Expr.wellFormed_of_read hfirst (hx.2.of_expect hfrom)
    obtain ⟨⟨us₄, h₄⟩, hto, h⟩ := bind_eq_ok.mp h
    obtain ⟨⟨b, us₅, h₅⟩, hbound, h⟩ := bind_eq_ok.mp h
    have hb := Expr.wellFormed_of_read hbound (ha.2.of_expect hto)
    obtain ⟨⟨body, us₆, h₆⟩, hbody, h⟩ := bind_eq_ok.mp h
    have hbody' := wellFormed_of_readBlock ⟨_, hbody⟩ hb.2
    obtain ⟨⟨us₇, h₇⟩, hend, h⟩ := bind_eq_ok.mp h
    cases h
    exact ⟨by simp [wellFormed, hx.1, ha.1, hb.1, hbody'.1], hbody'.2.of_expect hend⟩
  next p us =>
    obtain ⟨⟨f, us₁, h₁⟩, hname, h⟩ := bind_eq_ok.mp h
    have hf := hts.tail.of_expectName hname
    obtain ⟨⟨ps, us₂, h₂⟩, hparams, h⟩ := bind_eq_ok.mp h
    have hps := wellFormed_of_params hparams hf.2
    have hmark := named_of_preserveMark hps.2.2
    dsimp only at h
    generalize preserveMark us₂ = mark at h hmark
    obtain ⟨keep, vs, hvs⟩ := mark
    dsimp only at h hmark
    obtain ⟨⟨body, us₃, h₃⟩, hbody, h⟩ := bind_eq_ok.mp h
    have hb := wellFormed_of_readBlock ⟨_, hbody⟩ hmark
    obtain ⟨⟨us₄, h₄⟩, hend, h⟩ := bind_eq_ok.mp h
    cases h
    refine ⟨?_, hb.2.of_expect hend⟩
    simp only [wellFormed, hf.1, hps.1, hps.2.1, hb.1, decide_true, Bool.and_true]
  next p us =>
    obtain ⟨⟨l, us₁, h₁⟩, hname, h⟩ := bind_eq_ok.mp h
    cases h
    exact hts.tail.of_expectName hname
  next l p q us =>
    cases h
    exact ⟨hts.name, hts.tail.tail⟩
  next => exact wellFormed_of_simple h hts
termination_by (ts.length, 0)
decreasing_by
  all_goals
    apply Prod.Lex.left
    simp only [List.length_cons] at *
    omega

theorem wellFormed_of_readBlock {o : Origin} {ending : Ending} {b : Block}
    {ts rest : List Token} (h : Leaves (readBlock o ending ts) b rest) (hts : Named ts) :
    wellFormedAll b ∧ Named rest := by
  generalize hus : ts = us at h
  have hlen := congrArg List.length hus
  rw [hus] at hts
  obtain ⟨hle, h⟩ := h
  unfold readBlock at h
  split at h
  next =>
    split at h
    next =>
      cases h
      exact ⟨rfl, hts⟩
    next => cases h
  next t us =>
    split at h
    next =>
      cases h
      exact ⟨rfl, hts⟩
    next =>
      split at h
      next =>
        obtain ⟨⟨b', vs, hvs⟩, hblock, h⟩ := bind_eq_ok.mp h
        cases h
        exact wellFormed_of_readBlock ⟨_, hblock⟩ hts.tail
      next =>
        obtain ⟨⟨s, vs, hvs⟩, hstmt, h⟩ := bind_eq_ok.mp h
        have hs := wellFormed_of_read ⟨_, hstmt⟩ hts
        obtain ⟨_, -, h⟩ := bind_eq_ok.mp h
        obtain ⟨⟨b', ws, hws⟩, hblock, h⟩ := bind_eq_ok.mp h
        cases h
        have hb := wellFormed_of_readBlock ⟨_, hblock⟩ hs.2
        exact ⟨by simp [wellFormedAll, hs.1, hb.1], hb.2⟩
termination_by (ts.length, 1)
decreasing_by
  · rw [hlen]
    exact Prod.Lex.right _ (Nat.lt_succ_self _)
  all_goals
    apply Prod.Lex.left
    rw [hlen]
    first | exact hvs | exact Nat.lt_succ_self _

end

end Stmt

/-! ## Texts -/

namespace Token

theorem lexeme_of_sign? {c : Char} {rest : List Char} {p : Piece} {x : String}
    (h : sign? c rest = some p) : p.lexeme ≠ some (.name x) := by
  have hpair {d : Char} : pair? c d ≠ some (.name x) := by
    unfold pair?
    split <;> simp
  have hsingle : single? c ≠ some (.name x) := by
    unfold single?
    split <;> simp
  unfold sign? at h
  split at h
  next l hl =>
    cases h
    intro hx
    rw [Option.some.inj hx] at hl
    obtain ⟨d, -, hd⟩ := Option.bind_eq_some_iff.mp hl
    exact hpair hd
  next =>
    obtain ⟨l, hl, rfl⟩ := Option.map_eq_some_iff.mp h
    intro hx
    rw [Option.some.inj hx] at hl
    exact hsingle hl

theorem lexeme_of_character {cs : List Char} {p : Piece} {x : String}
    (h : character cs = .ok p) : p.lexeme ≠ some (.name x) := by
  unfold character at h
  repeat' split at h
  all_goals cases h
  all_goals exact nofun

theorem lexeme_of_digits {base : Nat} {isDigit : Char → Bool} {mark : String} {skip : Nat}
    {cs : List Char} {p : Piece} {x : String} (h : digits base isDigit mark skip cs = .ok p) :
    p.lexeme ≠ some (.name x) := by
  unfold digits at h
  dsimp only at h
  repeat' split at h
  all_goals cases h
  all_goals exact nofun

theorem lexeme_of_number {cs : List Char} {p : Piece} {x : String} (h : number cs = .ok p) :
    p.lexeme ≠ some (.name x) := by
  unfold number at h
  split at h <;> exact lexeme_of_digits h

theorem isName_of_nameOrKeyword {c : Char} {cs : List Char} {x : String} (hc : isNameStart c)
    (h : nameOrKeyword (String.ofList (c :: cs.takeWhile isNamePart)) = .name x) : isName x := by
  unfold nameOrKeyword at h
  split at h
  next => cases h
  next hkeyword =>
    cases h
    have hall : (cs.takeWhile isNamePart).all isNamePart := List.all_takeWhile
    simp only [isName, String.toList_ofList, hc, hall, hkeyword, Option.isNone_none, Bool.and_true]

/-- Only the last kind of piece, a run of the characters of names, can hold a name. -/
theorem isName_of_piece {c : Char} {rest : List Char} {x : String} {more : Nat}
    (h : piece c rest = .ok ⟨some (.name x), more⟩) : isName x := by
  unfold piece at h
  split at h
  next => cases h
  next =>
  split at h
  next => cases h
  next =>
  split at h
  next => cases h
  next =>
  split at h
  next p hsign =>
    cases h
    exact absurd rfl (lexeme_of_sign? hsign)
  next =>
  split at h
  next =>
    obtain ⟨⟨s, close⟩, -, h⟩ := Reader.bind_eq_ok.mp h
    cases h
  next =>
  split at h
  next => exact absurd rfl (lexeme_of_character h)
  next =>
  split at h
  next => exact absurd rfl (lexeme_of_number h)
  next =>
  split at h
  next hc =>
    injection h with h
    injection h with h
    exact isName_of_nameOrKeyword hc (Option.some.inj h)
  next => cases h

theorem named_of_scanFrom {p last : Position} {cs : List Char} {ts : List Token}
    (h : scanFrom p cs = .ok (ts, last)) : Named ts := by
  induction p, cs using scanFrom.induct generalizing ts with
  | case1 p =>
      rw [scanFrom] at h
      cases h
      exact nofun
  | case2 p c rest r hpiece =>
      rw [scanFrom, hpiece] at h
      cases h
  | case3 p c rest more hpiece ih =>
      rw [scanFrom, hpiece] at h
      exact ih h
  | case4 p c rest l more hpiece ih =>
      rw [scanFrom, hpiece] at h
      dsimp only at h
      obtain ⟨⟨us, last'⟩, hus, h⟩ := Reader.bind_eq_ok.mp h
      cases h
      intro t ht x hx
      cases ht with
      | head =>
          cases hx
          exact isName_of_piece hpiece
      | tail _ ht => exact ih hus t ht x hx

end Token

theorem DataItem.wellFormed_of_readAll {ts rest : List Token} {items : List DataItem}
    (h : readAll ts = .ok (items, rest)) (hts : Named ts) :
    (∀ item ∈ items, item.WellFormed) ∧ Named rest := by
  induction ts using readAll.induct generalizing items with
  | case1 p us =>
      rw [readAll] at h
      cases h
      exact ⟨nofun, hts.tail⟩
  | case2 p us ih =>
      rw [readAll] at h
      exact ih h hts.tail
  | case3 x p q us ih =>
      rw [readAll] at h
      obtain ⟨⟨items', r⟩, hread, h⟩ := Reader.bind_eq_ok.mp h
      cases h
      have hrest := ih hread hts.tail.tail
      exact ⟨List.forall_mem_cons.mpr ⟨hts.name, hrest.1⟩, hrest.2⟩
  | case4 s p us ih =>
      rw [readAll] at h
      obtain ⟨⟨items', r⟩, hread, h⟩ := Reader.bind_eq_ok.mp h
      cases h
      have hrest := ih hread hts.tail
      exact ⟨List.forall_mem_cons.mpr ⟨.inr (.inr ⟨s, rfl⟩), hrest.1⟩, hrest.2⟩
  | case5 n p us hn ih =>
      rw [readAll, if_pos hn] at h
      obtain ⟨⟨items', r⟩, hread, h⟩ := Reader.bind_eq_ok.mp h
      cases h
      have hrest := ih hread hts.tail
      exact ⟨List.forall_mem_cons.mpr ⟨.inl rfl, hrest.1⟩, hrest.2⟩
  | case6 n p us hn =>
      rw [readAll, if_neg hn] at h
      cases h
  | case7 p n q us hn ih =>
      rw [readAll, if_pos hn] at h
      obtain ⟨⟨items', r⟩, hread, h⟩ := Reader.bind_eq_ok.mp h
      cases h
      have hrest := ih hread hts.tail.tail
      exact ⟨List.forall_mem_cons.mpr ⟨.inr (.inl rfl), hrest.1⟩, hrest.2⟩
  | case8 p n q us hn =>
      rw [readAll, if_neg hn] at h
      cases h
  | case9 p us hus =>
      rw [readAll] at h
      · cases h
      · exact hus
  | case10 us =>
      rw [readAll] at h
      · cases h
      all_goals assumption

namespace Source

theorem wellFormed_of_readData {ts rest : List Token} {items : List DataItem}
    (h : readData ts = .ok (items, rest)) (hts : Named ts) :
    (∀ item ∈ items, item.WellFormed) ∧ Named rest := by
  unfold readData at h
  split at h
  next =>
    obtain ⟨⟨items', r⟩, hread, h⟩ := Reader.bind_eq_ok.mp h
    obtain ⟨_, -, h⟩ := Reader.bind_eq_ok.mp h
    cases h
    exact DataItem.wellFormed_of_readAll hread hts.tail
  next =>
    cases h
    exact ⟨nofun, hts⟩

theorem wellFormed_of_read {o : Origin} {ts : List Token} {s : Source}
    (h : read o ts = .ok s) (hts : Named ts) : s.WellFormed := by
  obtain ⟨⟨items, r⟩, hdata, h⟩ := Reader.bind_eq_ok.mp h
  obtain ⟨⟨code, rest⟩, hcode, h⟩ := Reader.bind_eq_ok.mp h
  cases h
  have hitems := wellFormed_of_readData hdata
    fun t ht => hts t ((List.dropWhile_sublist _).subset ht)
  exact ⟨hitems.1, (Stmt.wellFormed_of_readBlock ⟨_, hcode⟩ hitems.2).1⟩

theorem wellFormed_of_parse {file text : String} {s : Source} (h : parse file text = .ok s) :
    s.WellFormed := by
  obtain ⟨⟨ts, last⟩, hscan, h⟩ := Reader.bind_eq_ok.mp h
  dsimp only at h
  split at h
  next hread =>
    cases h
    exact wellFormed_of_read hread (Token.named_of_scanFrom hscan)
  next => cases h

end Source

/-! ## Code -/

def IsLabel (l : String) : Prop := isName l ∨ ∃ k, l = madeLabel k

namespace Instr

inductive WellFormed : Instr → Prop
  | assign {t e} : t.wellFormed → e.wellFormed → WellFormed (assign t e)
  | goto {l} : IsLabel l → WellFormed (goto l)
  | label {l} : IsLabel l → WellFormed (label l)
  | jumpFalse {c l} : c.wellFormed → IsLabel l → WellFormed (jumpFalse c l)
  | funEntry {f ps keep} : isName f → ps.all isName → ps.Nodup → WellFormed (funEntry f ps keep)
  | funReturn : WellFormed funReturn
  | eval {e} : e.isCall → e.wellFormed → WellFormed (eval e)

end Instr

namespace Stmt

mutual

theorem wellFormed_lower (k : Nat) {s : Stmt} (h : s.wellFormed) :
    ∀ line ∈ s.lower k, line.instr.WellFormed := by
  have hmade (k : Nat) : IsLabel (madeLabel k) := .inr ⟨k, rfl⟩
  match s with
  | assign t e l =>
      obtain ⟨ht, he⟩ := Bool.and_eq_true_iff.mp h
      exact List.forall_mem_singleton.mpr (.assign ht he)
  | goto x l => exact List.forall_mem_singleton.mpr (.goto (.inl h))
  | label x l => exact List.forall_mem_singleton.mpr (.label (.inl h))
  | eval e l =>
      obtain ⟨hcall, he⟩ := Bool.and_eq_true_iff.mp h
      exact List.forall_mem_singleton.mpr (.eval hcall he)
  | ifThen c yes l =>
      simp only [wellFormed, Bool.and_eq_true] at h
      have hyes := wellFormed_lowerAll (k + 1) h.2
      simp only [lower, List.cons_append, List.forall_mem_cons, List.forall_mem_append]
      exact ⟨.jumpFalse h.1 (hmade _), hyes, .label (hmade _), nofun⟩
  | ifElse c yes no l =>
      simp only [wellFormed, Bool.and_eq_true] at h
      have hyes := wellFormed_lowerAll (k + 1) h.1.2
      have hno := wellFormed_lowerAll (k + 1 + labelCountAll yes + 1) h.2
      simp only [lower, List.cons_append, List.forall_mem_cons, List.forall_mem_append]
      exact ⟨.jumpFalse h.1.1 (hmade _), ⟨hyes, .goto (hmade _), .label (hmade _), hno⟩,
        .label (hmade _), nofun⟩
  | whileLoop c body l =>
      simp only [wellFormed, Bool.and_eq_true] at h
      have hbody := wellFormed_lowerAll (k + 2) h.2
      simp only [lower, List.cons_append, List.forall_mem_cons, List.forall_mem_append]
      exact ⟨.label (hmade _), .jumpFalse h.1 (hmade _), hbody, .goto (hmade _),
        .label (hmade _), nofun⟩
  | forLoop x a b body l =>
      simp only [wellFormed, Bool.and_eq_true] at h
      obtain ⟨⟨⟨hx, ha⟩, hb⟩, hbody⟩ := h
      have hblock := wellFormed_lowerAll (k + 2) hbody
      have hless : (Expr.bin (.known .lt) (.var x) b).wellFormed := by
        simp [Expr.wellFormed, BinOp.isKnown, hx, hb]
      have hmore : (Expr.bin (.known .add) (.var x) (.lit 1)).wellFormed := by
        simp +decide [Expr.wellFormed, BinOp.isKnown, hx]
      simp only [lower, List.cons_append, List.forall_mem_cons, List.forall_mem_append]
      exact ⟨.assign hx ha, .label (hmade _), .jumpFalse hless (hmade _), hblock,
        .assign hx hmore, .goto (hmade _), .label (hmade _), nofun⟩
  | function f ps keep body l =>
      simp only [wellFormed, Bool.and_eq_true, decide_eq_true_eq] at h
      obtain ⟨⟨⟨hf, hps⟩, hnodup⟩, hbody⟩ := h
      have hblock := wellFormed_lowerAll k hbody
      simp only [lower, List.cons_append, List.forall_mem_cons, List.forall_mem_append]
      exact ⟨.funEntry hf hps hnodup, hblock, .funReturn, nofun⟩

theorem wellFormed_lowerAll (k : Nat) {b : Block} (h : wellFormedAll b) :
    ∀ line ∈ lowerAll k b, line.instr.WellFormed := by
  match b with
  | [] => exact nofun
  | s :: rest =>
      simp only [wellFormedAll, Bool.and_eq_true] at h
      have hs := wellFormed_lower k h.1
      have hrest := wellFormed_lowerAll (k + s.labelCount) h.2
      simp only [lowerAll, List.forall_mem_append]
      exact ⟨hs, hrest⟩

end

end Stmt

end BrownLang
