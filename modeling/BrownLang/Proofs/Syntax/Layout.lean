import Mathlib.Data.List.DropRight
import BrownLang.Proofs.Syntax.Failures
import BrownLang.Proofs.Syntax.ReadStmt
import BrownLang.Proofs.Text.Numerals

/-!
# Line ends and the readers

How many line ends stand between two statements says nothing, and neither do
those at the beginning and at the end of a file.  `Layout.gist` leaves them out.
The readers are taken through two lists of tokens at once: where the lists are
`Alike`, a reader that succeeds on one succeeds on the other, has read the same,
and leaves them alike.
-/

namespace BrownLang

def Lexeme.content (l : Lexeme) : Kind × String := (l.kind, l.text)

theorem Lexeme.content_injective : Function.Injective content := by
  intro l m h
  obtain ⟨hkind, htext⟩ := Prod.mk.inj h
  cases l <;> cases m <;> simp_all [kind, text]
  exact Text.decimal_injective htext

namespace Layout

/-! ## What lexemes say -/

def isLineEnd (a : Kind × String) : Bool := a.1 = .newline

def joinLineEnds : List (Kind × String) → List (Kind × String)
  | a :: b :: rest =>
    if isLineEnd a && isLineEnd b then joinLineEnds (b :: rest) else a :: joinLineEnds (b :: rest)
  | rest => rest

/-- The contents of the lexemes, with line ends joined and without those at the end. -/
def settled (ls : List Lexeme) : List (Kind × String) :=
  (joinLineEnds (ls.map Lexeme.content)).rdropWhile isLineEnd

/-- The contents of the lexemes, with line ends joined and without those at either end. -/
def gist (ls : List Lexeme) : List (Kind × String) := (settled ls).dropWhile isLineEnd

theorem isLineEnd_content {l : Lexeme} : isLineEnd l.content ↔ l = .newline := by
  cases l <;> simp [isLineEnd, Lexeme.content, Lexeme.kind]

theorem not_isLineEnd_content {l : Lexeme} (hl : l ≠ .newline) : isLineEnd l.content = false := by
  simpa using isLineEnd_content.not.mpr hl

theorem rdropWhile_cons {α : Type} {p : α → Bool} {a : α} {l : List α}
    (h : p a = false ∨ l.rdropWhile p ≠ []) : (a :: l).rdropWhile p = a :: l.rdropWhile p := by
  rw [List.rdropWhile, List.reverse_cons, List.dropWhile_append, List.rdropWhile]
  split
  next hnone =>
    have hnil : l.rdropWhile p = [] := by simpa [List.rdropWhile] using hnone
    simp [h.resolve_right (not_not_intro hnil), List.isEmpty_iff.mp hnone]
  next => simp

section

variable {l m : Lexeme} {ls ms : List Lexeme}

theorem settled_lexeme_cons (hl : l ≠ .newline) : settled (l :: ls) = l.content :: settled ls := by
  have hline := not_isLineEnd_content hl
  have hjoin : joinLineEnds ((l :: ls).map Lexeme.content) =
      l.content :: joinLineEnds (ls.map Lexeme.content) := by
    cases ls with
    | nil => rfl
    | cons m ms => simp [joinLineEnds, hline]
  rw [settled, hjoin, rdropWhile_cons (.inl hline), settled]

theorem settled_newline_newline : settled (.newline :: .newline :: ls) = settled (.newline :: ls) :=
  rfl

theorem settled_newline_lexeme (hm : m ≠ .newline) :
    settled (.newline :: m :: ms) = Lexeme.newline.content :: settled (m :: ms) := by
  have hline := not_isLineEnd_content hm
  have hjoin : joinLineEnds ((.newline :: m :: ms).map Lexeme.content) =
      Lexeme.newline.content :: joinLineEnds ((m :: ms).map Lexeme.content) := by
    simp [joinLineEnds, hline]
  rw [settled, hjoin, rdropWhile_cons (.inr ?_), settled]
  rw [← settled, settled_lexeme_cons hm]
  exact List.cons_ne_nil _ _

theorem isLineEnd_of_mem_head? {a : Kind × String}
    (ha : a ∈ (settled (.newline :: ls)).head?) : isLineEnd a := by
  induction ls with
  | nil => exact nomatch ha
  | cons m ms ih =>
      by_cases hm : m = .newline
      · subst hm
        rw [settled_newline_newline] at ha
        exact ih ha
      · rw [settled_newline_lexeme hm] at ha
        cases ha
        rfl

theorem settled_cons : settled (l :: ls) =
    if l = .newline ∧ ∀ a ∈ (settled ls).head?, isLineEnd a then settled ls
    else l.content :: settled ls := by
  by_cases hl : l = .newline
  · subst hl
    cases ls with
    | nil => rfl
    | cons m ms =>
        by_cases hm : m = .newline
        · subst hm
          rw [settled_newline_newline, if_pos ⟨rfl, fun _ => isLineEnd_of_mem_head?⟩]
        · rw [settled_newline_lexeme hm, if_neg]
          rintro ⟨-, hline⟩
          rw [settled_lexeme_cons hm] at hline
          exact hm (isLineEnd_content.mp (hline _ rfl))
  · rw [settled_lexeme_cons hl, if_neg fun h => hl h.1]

/-- What is settled after some lexemes can be put in the place of what follows them. -/
theorem settled_append (h : settled ls = settled ms) (front : List Lexeme) :
    settled (front ++ ls) = settled (front ++ ms) := by
  induction front with
  | nil => exact h
  | cons l front ih => rw [List.cons_append, List.cons_append, settled_cons, settled_cons, ih]

theorem dropWhile_settled (ls : List Lexeme) :
    (settled ls).dropWhile isLineEnd = settled (ls.dropWhile (· = .newline)) := by
  induction ls with
  | nil => rfl
  | cons l ls ih =>
      by_cases hl : l = .newline
      · rw [List.dropWhile_cons_of_pos (by simpa using hl), ← ih, settled_cons]
        split
        next => rfl
        next => rw [List.dropWhile_cons_of_pos (isLineEnd_content.mpr hl)]
      · rw [List.dropWhile_cons_of_neg (by simpa using hl), settled_lexeme_cons hl,
          List.dropWhile_cons_of_neg (by simp [not_isLineEnd_content hl])]

end

/-! ## Tokens that say the same from some place on -/

def skipLineEnds (ts : List Token) : List Token := ts.dropWhile (·.lexeme = .newline)

section

variable {t : Token} {ts us : List Token}

theorem skipLineEnds_cons_newline (ht : t.lexeme = .newline) :
    skipLineEnds (t :: ts) = skipLineEnds ts :=
  List.dropWhile_cons_of_pos (by simpa using ht)

theorem skipLineEnds_cons (ht : t.lexeme ≠ .newline) : skipLineEnds (t :: ts) = t :: ts :=
  List.dropWhile_cons_of_neg (by simpa using ht)

theorem skipLineEnds_idem (ts : List Token) : skipLineEnds (skipLineEnds ts) = skipLineEnds ts :=
  List.dropWhile_idempotent _ ts

theorem length_skipLineEnds_le (ts : List Token) : (skipLineEnds ts).length ≤ ts.length :=
  (List.dropWhile_suffix _).length_le

theorem lexeme_ne_newline_of_skipLineEnds (h : skipLineEnds ts = t :: us) :
    t.lexeme ≠ .newline := by
  have hstop := List.head?_dropWhile_not (fun t : Token => decide (t.lexeme = .newline)) ts
  rw [← skipLineEnds, h] at hstop
  simpa using hstop

theorem settled_skipLineEnds (ts : List Token) :
    settled ((skipLineEnds ts).map Token.lexeme) = gist (ts.map Token.lexeme) := by
  rw [gist, dropWhile_settled, List.dropWhile_map]
  rfl

end

/-- Line ends apart, which may be more or fewer at one place, the tokens say the same. -/
def Alike (ts us : List Token) : Prop :=
  settled (ts.map Token.lexeme) = settled (us.map Token.lexeme)

namespace Alike

variable {ts us : List Token}

theorem symm (h : Alike ts us) : Alike us ts := Eq.symm h

theorem of_gist (h : gist (ts.map Token.lexeme) = gist (us.map Token.lexeme)) :
    Alike (skipLineEnds ts) (skipLineEnds us) := by
  rw [Alike, settled_skipLineEnds, settled_skipLineEnds, h]

theorem skipLineEnds (h : Alike ts us) : Alike (skipLineEnds ts) (skipLineEnds us) :=
  of_gist (congrArg (List.dropWhile isLineEnd) h)

theorem cons {l : Lexeme} {p : Position} (hl : l ≠ .newline) (h : Alike (⟨l, p⟩ :: ts) us) :
    ∃ q us', us = ⟨l, q⟩ :: us' ∧ Alike ts us' := by
  have hsettled : settled (us.map Token.lexeme) = l.content :: settled (ts.map Token.lexeme) := by
    rw [← settled_lexeme_cons hl, ← h]
    rfl
  cases us with
  | nil => exact nomatch hsettled
  | cons u us =>
      obtain ⟨m, q⟩ := u
      rw [List.map_cons] at hsettled
      by_cases hm : m = .newline
      · subst hm
        have hline := isLineEnd_of_mem_head? (a := l.content) (by rw [hsettled]; rfl)
        exact absurd (isLineEnd_content.mp hline) hl
      · rw [settled_lexeme_cons hm] at hsettled
        obtain ⟨hcontent, htail⟩ := List.cons.inj hsettled
        obtain rfl := Lexeme.content_injective hcontent
        exact ⟨q, us, rfl, htail.symm⟩

theorem eq_nil (h : Alike us []) (hus : Layout.skipLineEnds us = us) : us = [] := by
  cases us with
  | nil => rfl
  | cons u us =>
      obtain ⟨q, ts, hts, -⟩ := h.cons (lexeme_ne_newline_of_skipLineEnds hus)
      exact nomatch hts

theorem kindAt (h : Alike ts us) :
    Reader.kindAt us = Reader.kindAt ts ∨
      Reader.kindAt us = .newline ∨ Reader.kindAt us = .eof := by
  match us with
  | [] => exact .inr (.inr rfl)
  | ⟨l, p⟩ :: us =>
      by_cases hl : l = .newline
      · exact .inr (.inl (by rw [hl]; rfl))
      · obtain ⟨q, ts', rfl, -⟩ := h.symm.cons hl
        exact .inl rfl

end Alike

end Layout

open Reader Layout

/-! ## Reading expressions -/

namespace Reader

variable {ts us rest : List Token} {hlt : rest.length < ts.length}

theorem alike_expect {k : Kind} (hk : k ≠ .newline) (h : expect k ts = .ok ⟨rest, hlt⟩)
    (ha : Alike ts us) :
    ∃ (rest' : List Token) (hlt' : rest'.length < us.length),
      expect k us = .ok ⟨rest', hlt'⟩ ∧ Alike rest rest' := by
  obtain ⟨⟨l, p⟩, rfl, hl⟩ := of_expect h
  have hnewline : l ≠ .newline := by
    rintro rfl
    exact hk hl.symm
  obtain ⟨q, us', rfl, hus⟩ := ha.cons hnewline
  exact ⟨us', Nat.lt_succ_self _, if_pos hl, hus⟩

theorem alike_expectName {x : String} (h : expectName ts = .ok (x, ⟨rest, hlt⟩))
    (ha : Alike ts us) :
    ∃ (rest' : List Token) (hlt' : rest'.length < us.length),
      expectName us = .ok (x, ⟨rest', hlt'⟩) ∧ Alike rest rest' := by
  obtain ⟨p, rfl⟩ := of_expectName h
  obtain ⟨q, us', rfl, hus⟩ := ha.cons (by simp)
  exact ⟨us', Nat.lt_succ_self _, rfl, hus⟩

end Reader

namespace Expr

section

variable {p q r : Position} {ts us rest : List Token} {e : Expr}

theorem leaves_primary_number {n : Nat} (hn : n < Word.count) :
    Leaves (primary (⟨.number n, p⟩ :: ts)) (.lit n) ts := by
  refine ⟨Nat.lt_succ_self _, ?_⟩
  unfold primary
  simp only [expectWord, if_pos hn]
  rfl

theorem leaves_primary_addr {x : String} :
    Leaves (primary (⟨.operator .and, p⟩ :: ⟨.name x, q⟩ :: ts)) (.addr x) ts := by
  refine ⟨Nat.lt_succ_of_lt (Nat.lt_succ_self _), ?_⟩
  unfold primary
  rfl

theorem leaves_primary_empty_call {f : String} :
    Leaves (primary (⟨.name f, p⟩ :: ⟨.punct .lparen, q⟩ :: ⟨.punct .rparen, r⟩ :: ts))
      (.call f []) ts := by
  refine ⟨Nat.lt_add_of_pos_right (Nat.succ_pos 2), ?_⟩
  unfold primary
  rfl

theorem leaves_primary_name {x : String} (h : Names x ts) :
    Leaves (primary (⟨.name x, p⟩ :: ts)) (.var x) ts := by
  refine ⟨Nat.lt_succ_self _, ?_⟩
  unfold primary
  cases ts with
  | nil => rfl
  | cons t ts =>
      obtain ⟨l, q⟩ := t
      cases l with
      | punct s =>
          cases s with
          | lparen => exact absurd rfl (h.1 q ts)
          | lbracket => exact if_neg fun hx => h.2 hx q ts rfl
          | _ => rfl
      | _ => rfl

theorem Names.alike {x : String} (h : Names x ts) (ha : Alike ts us) : Names x us := by
  constructor
  · rintro q us rfl
    obtain ⟨p, ts', rfl, -⟩ := ha.symm.cons (by simp)
    exact h.1 p ts' rfl
  · rintro hx q us rfl
    obtain ⟨p, ts', rfl, -⟩ := ha.symm.cons (by simp)
    exact h.2 hx p ts' rfl

theorem NextLevel.alike {P : Nat → Prop} (h : NextLevel P ts) (ha : Alike ts us) :
    NextLevel P us := by
  intro o q hus
  obtain ⟨us', rfl⟩ := List.head?_eq_some_iff.mp hus
  obtain ⟨p, ts', rfl, -⟩ := ha.symm.cons (by simp)
  exact h o p rfl

theorem head_ne_rparen_of_arguments {args : List Expr} (h : Leaves (arguments ts) args rest)
    (s : Position) : ts.head? ≠ some ⟨.punct .rparen, s⟩ := by
  have hfirst : ∃ e us, Leaves (binary 0 ts) e us := by
    rcases of_leaves_arguments h with ⟨e, -, he⟩ | ⟨e, es, p, us, -, he, -⟩
    · exact ⟨e, _, he⟩
    · exact ⟨e, _, he⟩
  obtain ⟨e, us, he⟩ := hfirst
  obtain ⟨l, vs, hl, -⟩ := of_leaves_binary he
  rcases of_leaves_primary hl with hts | hts | hts | hts | hts <;> simp [hts]

end

mutual

theorem alike_primary {ts us rest : List Token} {e : Expr} (h : Leaves (primary ts) e rest)
    (ha : Alike ts us) : ∃ rest', Leaves (primary us) e rest' ∧ Alike rest rest' := by
  match of_leaves_primary h with
  | .number hts =>
      subst hts
      obtain ⟨q, us, rfl, hus⟩ := ha.cons (by simp)
      obtain ⟨hn, rfl, rfl⟩ := of_leaves_number h
      exact ⟨us, leaves_primary_number hn, hus⟩
  | .and hts =>
      subst hts
      obtain ⟨q, us, rfl, hus⟩ := ha.cons (by simp)
      obtain ⟨x, q', rfl, rfl⟩ := of_leaves_and h
      obtain ⟨r, vs, rfl, hvs⟩ := hus.cons (by simp)
      exact ⟨vs, leaves_primary_addr, hvs⟩
  | .bracket hts =>
      have hlt := length_lt_of_cons hts
      subst hts
      obtain ⟨q, us, rfl, hus⟩ := ha.cons (by simp)
      obtain ⟨a, r, rfl, hread⟩ := of_leaves_bracket h
      obtain ⟨vs, hread', hvs⟩ := alike_binary hread hus
      obtain ⟨s, rest', rfl, hrest⟩ := hvs.cons (by simp)
      exact ⟨rest', leaves_primary_word hread', hrest⟩
  | .paren hts =>
      have hlt := length_lt_of_cons hts
      subst hts
      obtain ⟨q, us, rfl, hus⟩ := ha.cons (by simp)
      obtain ⟨r, hread⟩ := of_leaves_paren h
      obtain ⟨vs, hread', hvs⟩ := alike_binary hread hus
      obtain ⟨s, rest', rfl, hrest⟩ := hvs.cons (by simp)
      exact ⟨rest', leaves_primary_paren hread', hrest⟩
  | .name hts =>
      have hlt := length_lt_of_cons hts
      subst hts
      obtain ⟨q, us, rfl, hus⟩ := ha.cons (by simp)
      rcases of_leaves_name h with ⟨rfl, rfl, hnames⟩ | ⟨a, q', r, ts', rfl, rfl, hts, hread⟩ |
        ⟨q', r, rfl, rfl⟩ | ⟨args, q', r, ts', rfl, hts, hargs⟩
      · exact ⟨us, leaves_primary_name (hnames.alike hus), hus⟩
      · have hlt' := length_lt_of_cons hts
        subst hts
        obtain ⟨s, vs, rfl, hvs⟩ := hus.cons (by simp)
        obtain ⟨ws, hread', hws⟩ := alike_binary hread hvs
        obtain ⟨s', rest', rfl, hrest⟩ := hws.cons (by simp)
        exact ⟨rest', leaves_primary_byte hread', hrest⟩
      · obtain ⟨s, vs, rfl, hvs⟩ := hus.cons (by simp)
        obtain ⟨s', rest', rfl, hrest⟩ := hvs.cons (by simp)
        exact ⟨rest', leaves_primary_empty_call, hrest⟩
      · have hlt' := length_lt_of_cons hts
        subst hts
        obtain ⟨s, vs, rfl, hvs⟩ := hus.cons (by simp)
        obtain ⟨s', rest', hargs', hrest⟩ := alike_arguments hargs hvs
        exact ⟨rest', leaves_primary_call (head_ne_rparen_of_arguments hargs') hargs', hrest⟩
termination_by (ts.length, 0)
decreasing_by
  all_goals
    apply Prod.Lex.left
    omega

theorem alike_binary {min : Nat} {ts us rest : List Token} {e : Expr}
    (h : Leaves (binary min ts) e rest) (ha : Alike ts us) :
    ∃ rest', Leaves (binary min us) e rest' ∧ Alike rest rest' := by
  obtain ⟨l, vs, hl, hclimb⟩ := of_leaves_binary h
  have hlt := hl.length_lt
  obtain ⟨vs', hl', hvs⟩ := alike_primary hl ha
  obtain ⟨rest', hclimb', hrest⟩ := alike_climb hclimb hvs
  exact ⟨rest', leaves_binary hl' hclimb', hrest⟩
termination_by (ts.length, 1)
decreasing_by
  · exact Prod.Lex.right _ (Nat.lt_succ_self _)
  · exact Prod.Lex.left _ _ hlt

theorem alike_climb {min : Nat} {l e : Expr} {ts us rest : List Token}
    (h : Leaves (climb min l ts) e rest) (ha : Alike ts us) :
    ∃ rest', Leaves (climb min l us) e rest' ∧ Alike rest rest' := by
  rcases of_leaves_climb h with ⟨rfl, rfl, hnext⟩ | ⟨o, p, ts', r, vs, hts, hmin, hr, he⟩
  · exact ⟨us, leaves_climb_stop (hnext.alike ha), ha⟩
  · have hlt := length_lt_of_cons hts
    have hlt' := hr.length_lt
    rw [hts] at ha
    obtain ⟨q, us, rfl, hus⟩ := ha.cons (by simp)
    obtain ⟨vs', hr', hvs⟩ := alike_binary hr hus
    obtain ⟨rest', he', hrest⟩ := alike_climb he hvs
    exact ⟨rest', leaves_climb_operator hmin hr' he', hrest⟩
termination_by (ts.length, 0)
decreasing_by
  all_goals
    apply Prod.Lex.left
    omega

theorem alike_arguments {args : List Expr} {p : Position} {ts us rest : List Token}
    (h : Leaves (arguments ts) args (⟨.punct .rparen, p⟩ :: rest)) (ha : Alike ts us) :
    ∃ q rest', Leaves (arguments us) args (⟨.punct .rparen, q⟩ :: rest') ∧ Alike rest rest' := by
  rcases of_leaves_arguments h with ⟨e, rfl, he⟩ | ⟨e, es, r, vs, rfl, he, hes⟩
  · obtain ⟨vs, he', hvs⟩ := alike_binary he ha
    obtain ⟨q, rest', rfl, hrest⟩ := hvs.cons (by simp)
    exact ⟨q, rest', leaves_arguments_last he', hrest⟩
  · have hlt : vs.length < ts.length := Nat.lt_of_succ_lt he.length_lt
    obtain ⟨vs', he', hvs⟩ := alike_binary he ha
    obtain ⟨s, ws, rfl, hws⟩ := hvs.cons (by simp)
    obtain ⟨q, rest', hes', hrest⟩ := alike_arguments hes hws
    exact ⟨q, rest', leaves_arguments_more he' hes', hrest⟩
termination_by (ts.length, 2)
decreasing_by
  · exact Prod.Lex.right _ (Nat.lt_succ_self _)
  · exact Prod.Lex.right _ (Nat.lt_succ_self _)
  · exact Prod.Lex.left _ _ hlt

end

theorem alike_read {ts us rest : List Token} {e : Expr} (h : Leaves (read ts) e rest)
    (ha : Alike ts us) : ∃ rest', Leaves (read us) e rest' ∧ Alike rest rest' :=
  alike_binary h ha

theorem alike_readBracketed {ts us rest : List Token} {a : Expr}
    (h : Leaves (readBracketed ts) a rest) (ha : Alike ts us) :
    ∃ rest', Leaves (readBracketed us) a rest' ∧ Alike rest rest' := by
  obtain ⟨hlt, h⟩ := h
  obtain ⟨⟨vs, hvs⟩, hopen, h⟩ := bind_eq_ok.mp h
  obtain ⟨⟨a', ws, hws⟩, hread, h⟩ := bind_eq_ok.mp h
  obtain ⟨⟨xs, hxs⟩, hclose, h⟩ := bind_eq_ok.mp h
  cases h
  obtain ⟨vs', hvs', hopen', ha⟩ := alike_expect (by simp) hopen ha
  obtain ⟨ws', ⟨hws', hread'⟩, ha⟩ := alike_read ⟨_, hread⟩ ha
  obtain ⟨xs', hxs', hclose', ha⟩ := alike_expect (by simp) hclose ha
  refine ⟨xs', ⟨by omega, ?_⟩, ha⟩
  unfold readBracketed
  simp only [hopen', bind, Except.bind, hread', hclose']
  rfl

end Expr

theorem Target.alike_read {ts us rest : List Token} {t : Target}
    (h : Expr.Leaves (read ts) t rest) (ha : Alike ts us) :
    ∃ rest', Expr.Leaves (read us) t rest' ∧ Alike rest rest' := by
  obtain ⟨hlt, h⟩ := h
  unfold read at h
  split at h
  next p ts =>
    obtain ⟨⟨a, vs, hvs⟩, hread, h⟩ := bind_eq_ok.mp h
    cases h
    obtain ⟨rest', ⟨hlt', hread'⟩, hrest⟩ := Expr.alike_readBracketed ⟨_, hread⟩ ha
    obtain ⟨q, us, rfl, -⟩ := ha.cons (by simp)
    refine ⟨rest', ⟨hlt', ?_⟩, hrest⟩
    unfold read
    simp only [hread']
    rfl
  next p q ts =>
    obtain ⟨⟨a, vs, hvs⟩, hread, h⟩ := bind_eq_ok.mp h
    cases h
    obtain ⟨p', us, rfl, hus⟩ := ha.cons (by simp)
    obtain ⟨rest', ⟨hlt', hread'⟩, hrest⟩ := Expr.alike_readBracketed ⟨_, hread⟩ hus
    obtain ⟨q', vs, rfl, -⟩ := hus.cons (by simp)
    refine ⟨rest', ⟨Nat.lt_succ_of_lt hlt', ?_⟩, hrest⟩
    unfold read
    simp only [hread']
    rfl
  next hbracket hbyte =>
    obtain ⟨⟨x, vs, hvs⟩, hread, h⟩ := bind_eq_ok.mp h
    cases h
    obtain ⟨rest', hlt', hread', hrest⟩ := alike_expectName hread ha
    refine ⟨rest', ⟨hlt', ?_⟩, hrest⟩
    rw [read]
    · rw [hread']
      rfl
    · rintro q us rfl
      obtain ⟨p, ts, rfl, -⟩ := ha.symm.cons (by simp)
      exact hbracket p ts rfl
    · rintro q q' us rfl
      obtain ⟨p, ts, rfl, hts⟩ := ha.symm.cons (by simp)
      obtain ⟨p', ts, rfl, -⟩ := hts.cons (by simp)
      exact hbyte p p' ts rfl

/-! ## Reading statements -/

namespace Stmt

open BrownLang.Expr (Leaves)

section

variable {ts us rest : List Token}

theorem lineEnd_eq_ok {ending : Ending} : lineEnd ending ts = .ok () ↔
    kindAt ts = .newline ∨ kindAt ts = .eof ∨ ending.stopsAt (kindAt ts) := by
  unfold lineEnd
  dsimp only
  split
  next h => simp [h]
  next h => simp [h, failAt]

theorem alike_lineEnd {ending : Ending} (h : lineEnd ending ts = .ok ()) (ha : Alike ts us) :
    lineEnd ending us = .ok () := by
  rw [lineEnd_eq_ok] at h ⊢
  rcases ha.kindAt with hkind | hkind | hkind
  · rwa [hkind]
  · exact .inl hkind
  · exact .inr (.inl hkind)

theorem alike_paramsFrom {before ps : List String} {ts us rest : List Token}
    {hlt : rest.length < ts.length} (h : paramsFrom before ts = .ok (ps, ⟨rest, hlt⟩))
    (ha : Alike ts us) : ∃ rest', Leaves (paramsFrom before us) ps rest' ∧ Alike rest rest' := by
  match ts with
  | [] => cases h
  | ⟨.name x, p⟩ :: ts =>
      obtain ⟨q, us, rfl, hus⟩ := ha.cons (by simp)
      obtain ⟨hx, ⟨r, more, hlt', rfl, hread⟩ | ⟨rfl, hlt', hclose⟩⟩ := of_paramsFrom_name h
      · obtain ⟨s, vs, rfl, hvs⟩ := hus.cons (by simp)
        obtain ⟨rest', ⟨hlt'', hread'⟩, hrest⟩ := alike_paramsFrom hread hvs
        refine ⟨rest', ⟨Nat.lt_succ_of_lt (Nat.lt_succ_of_lt hlt''), ?_⟩, hrest⟩
        rw [paramsFrom_comma, if_neg hx, hread']
        rfl
      · obtain ⟨rest', hlt'', hclose', hrest⟩ := alike_expect (by simp) hclose hus
        obtain ⟨s, rfl⟩ := of_expect_punct hclose'
        refine ⟨rest', ⟨Nat.lt_succ_of_lt hlt'', ?_⟩, hrest⟩
        rw [paramsFrom_last before x q (by simp), if_neg hx, hclose']
        rfl
  | ⟨.number _, _⟩ :: _ | ⟨.string _, _⟩ :: _ | ⟨.keyword _, _⟩ :: _ | ⟨.operator _, _⟩ :: _
  | ⟨.punct _, _⟩ :: _ | ⟨.newline, _⟩ :: _ => cases h
termination_by ts.length

theorem alike_params {ps : List String} (h : Leaves (params ts) ps rest) (ha : Alike ts us) :
    ∃ rest', Leaves (params us) ps rest' ∧ Alike rest rest' := by
  obtain ⟨hlt, h⟩ := h
  obtain ⟨⟨vs, hvs⟩, hopen, h⟩ := bind_eq_ok.mp h
  obtain ⟨vs', hvs', hopen', ha'⟩ := alike_expect (by simp) hopen ha
  dsimp only at h
  unfold params
  simp only [hopen', bind, Except.bind]
  split at h
  next p ws _ =>
    cases h
    obtain ⟨q, rest', rfl, hrest⟩ := ha'.cons (by simp)
    exact ⟨rest', ⟨_, rfl⟩, hrest⟩
  next hclose =>
    obtain ⟨⟨ps', ws, hws⟩, hread, h⟩ := bind_eq_ok.mp h
    cases h
    obtain ⟨rest', ⟨hlt', hread'⟩, hrest⟩ := alike_paramsFrom hread ha'
    split
    next q ws' _ =>
      obtain ⟨p, ws, rfl, -⟩ := ha'.symm.cons (by simp)
      exact (hclose p ws _ rfl HEq.rfl).elim
    next =>
      simp only [hread']
      exact ⟨rest', ⟨_, rfl⟩, hrest⟩

theorem alike_preserveMark (ha : Alike ts us) :
    (preserveMark us).1 = (preserveMark ts).1 ∧
      Alike (preserveMark ts).2.1 (preserveMark us).2.1 := by
  by_cases hmark : ∃ p vs, ts = ⟨.keyword .kwPreserve, p⟩ :: vs
  · obtain ⟨p, vs, rfl⟩ := hmark
    obtain ⟨q, us, rfl, hus⟩ := ha.cons (by simp)
    exact ⟨rfl, hus⟩
  · have hmark' : ¬ ∃ p vs, us = ⟨.keyword .kwPreserve, p⟩ :: vs := by
      rintro ⟨q, vs, rfl⟩
      obtain ⟨p, ts, rfl, -⟩ := ha.symm.cons (by simp)
      exact hmark ⟨p, ts, rfl⟩
    have hnone {ws : List Token} (h : ¬ ∃ p vs, ws = ⟨.keyword .kwPreserve, p⟩ :: vs) :
        preserveMark ws = (false, .all ws) := by
      unfold preserveMark
      split
      next p vs => exact (h ⟨p, vs, rfl⟩).elim
      next => rfl
    rw [hnone hmark, hnone hmark']
    exact ⟨rfl, ha⟩

theorem alike_simple {o w : Origin} {s : Stmt} (h : Leaves (simple o ts) s rest)
    (ha : Alike ts us) :
    ∃ s' rest', Leaves (simple w us) s' rest' ∧ s'.unlocated = s.unlocated ∧
      Alike rest rest' := by
  obtain ⟨hlt, h⟩ := h
  obtain ⟨⟨e, vs, hvs⟩, hread, h⟩ := bind_eq_ok.mp h
  obtain ⟨vs', ⟨hvs', hread'⟩, ha'⟩ := Expr.alike_read ⟨_, hread⟩ ha
  dsimp only at h
  unfold simple
  simp only [hread', bind, Except.bind]
  split at h
  next p ws _ =>
    obtain ⟨⟨t, xs, hxs⟩, htarget, h⟩ := bind_eq_ok.mp h
    cases h
    obtain ⟨q, ws', rfl, hws⟩ := ha'.cons (by simp)
    obtain ⟨rest', ⟨hlt', htarget'⟩, hrest⟩ := Target.alike_read ⟨_, htarget⟩ hws
    simp only [htarget']
    exact ⟨_, rest', ⟨_, rfl⟩, rfl, hrest⟩
  next harrow =>
    split at h
    next f args =>
      cases h
      split
      next q ws' _ =>
        obtain ⟨p, ws, rfl, -⟩ := ha'.symm.cons (by simp)
        exact (harrow p ws _ rfl HEq.rfl).elim
      next => exact ⟨_, vs', ⟨_, rfl⟩, rfl, ha'⟩
    next => cases h

structure Unmarked (ts : List Token) : Prop where
  keyword : ∀ k ∈ [Keyword.kwIf, .kwWhile, .kwFor, .kwFun, .kwGoto], ∀ p us,
    ts ≠ ⟨.keyword k, p⟩ :: us
  label : ∀ l p q us, ts ≠ ⟨.name l, p⟩ :: ⟨.punct .colon, q⟩ :: us

theorem Unmarked.alike (h : Unmarked ts) (ha : Alike ts us) : Unmarked us where
  keyword := by
    rintro k hk q us rfl
    obtain ⟨p, ts, rfl, -⟩ := ha.symm.cons (by simp)
    exact h.keyword k hk p ts rfl
  label := by
    rintro l q q' us rfl
    obtain ⟨p, ts, rfl, hts⟩ := ha.symm.cons (by simp)
    obtain ⟨p', ts, rfl, -⟩ := hts.cons (by simp)
    exact h.label l p p' ts rfl

theorem read_of_unmarked (o : Origin) (h : Unmarked ts) : read o ts = simple o ts := by
  unfold read
  split
  next p us => exact (h.keyword .kwIf (by simp) p us rfl).elim
  next p us => exact (h.keyword .kwWhile (by simp) p us rfl).elim
  next p us => exact (h.keyword .kwFor (by simp) p us rfl).elim
  next p us => exact (h.keyword .kwFun (by simp) p us rfl).elim
  next p us => exact (h.keyword .kwGoto (by simp) p us rfl).elim
  next l p q us => exact (h.label l p q us rfl).elim
  next => rfl

end

theorem leaves_readBlock_newline {o : Origin} {ending : Ending} {t : Token} {ts rest : List Token}
    {b : Block} (ht : t.lexeme = .newline) :
    Leaves (readBlock o ending (t :: ts)) b rest ↔ Leaves (readBlock o ending ts) b rest := by
  rw [readBlock]
  simp only [ht, Lexeme.kind, not_stopsAt_newline, Bool.false_eq_true, if_false, if_true]
  constructor
  · rintro ⟨hle, h⟩
    obtain ⟨⟨b', vs, hvs⟩, hread, h⟩ := bind_eq_ok.mp h
    cases h
    exact ⟨hvs, hread⟩
  · rintro ⟨hle, h⟩
    rw [h]
    exact ⟨Nat.le_succ_of_le hle, rfl⟩

theorem leaves_readBlock_skipLineEnds {o : Origin} {ending : Ending} {ts rest : List Token}
    {b : Block} :
    Leaves (readBlock o ending (skipLineEnds ts)) b rest ↔ Leaves (readBlock o ending ts) b rest := by
  induction ts with
  | nil => exact Iff.rfl
  | cons t ts ih =>
      by_cases ht : t.lexeme = .newline
      · rw [leaves_readBlock_newline ht, ← ih, skipLineEnds_cons_newline ht]
      · rw [skipLineEnds_cons ht]

mutual

theorem alike_read {o w : Origin} {s : Stmt} {ts us rest : List Token}
    (h : Leaves (read o ts) s rest) (ha : Alike ts us) :
    ∃ s' rest', Leaves (read w us) s' rest' ∧ s'.unlocated = s.unlocated ∧
      Alike rest rest' := by
  generalize hts : ts = ts₀ at h ha
  have hlen := congrArg List.length hts
  obtain ⟨hlt, h⟩ := h
  unfold read at h
  split at h
  next p ts₁ =>
    obtain ⟨⟨c, ts₂, h₂⟩, hc, h⟩ := bind_eq_ok.mp h
    obtain ⟨⟨yes, ts₃, h₃⟩, hyes, h⟩ := bind_eq_ok.mp h
    obtain ⟨q, us₁, rfl, ha₁⟩ := ha.cons (by simp)
    obtain ⟨us₂, ⟨_, hc'⟩, ha₂⟩ := Expr.alike_read ⟨_, hc⟩ ha₁
    obtain ⟨yes', us₃, ⟨_, hyes'⟩, hsame, ha₃⟩ := alike_readBlock (w := w) ⟨_, hyes⟩ ha₂
    dsimp only at h
    unfold read
    simp only [hc', bind, Except.bind, hyes']
    split at h
    next r ts₄ h₄ =>
      have h₄' : ts₄.length < ts₂.length := h₄
      obtain ⟨⟨no, ts₅, h₅⟩, hno, h⟩ := bind_eq_ok.mp h
      obtain ⟨⟨ts₆, h₆⟩, hend, h⟩ := bind_eq_ok.mp h
      cases h
      obtain ⟨r', us₄, rfl, ha₄⟩ := ha₃.cons (by simp)
      obtain ⟨no', us₅, ⟨_, hno'⟩, hsame', ha₅⟩ := alike_readBlock (w := w) ⟨_, hno⟩ ha₄
      obtain ⟨us₆, _, hend', ha₆⟩ := alike_expect (by simp) hend ha₅
      simp only [hno', hend']
      exact ⟨_, us₆, ⟨_, rfl⟩, by simp only [unlocated, hsame, hsame'], ha₆⟩
    next helse =>
      obtain ⟨⟨ts₄, h₄⟩, hend, h⟩ := bind_eq_ok.mp h
      cases h
      obtain ⟨us₄, _, hend', ha₄⟩ := alike_expect (by simp) hend ha₃
      split
      next r' us₄ _ =>
        obtain ⟨r, ts₄, rfl, -⟩ := ha₃.symm.cons (by simp)
        exact (helse r ts₄ _ rfl HEq.rfl).elim
      next =>
        simp only [hend']
        exact ⟨_, us₄, ⟨_, rfl⟩, by simp only [unlocated, hsame], ha₄⟩
  next p ts₁ =>
    obtain ⟨⟨c, ts₂, h₂⟩, hc, h⟩ := bind_eq_ok.mp h
    obtain ⟨⟨body, ts₃, h₃⟩, hbody, h⟩ := bind_eq_ok.mp h
    obtain ⟨⟨ts₄, h₄⟩, hend, h⟩ := bind_eq_ok.mp h
    cases h
    obtain ⟨q, us₁, rfl, ha₁⟩ := ha.cons (by simp)
    obtain ⟨us₂, ⟨_, hc'⟩, ha₂⟩ := Expr.alike_read ⟨_, hc⟩ ha₁
    obtain ⟨body', us₃, ⟨_, hbody'⟩, hsame, ha₃⟩ := alike_readBlock (w := w) ⟨_, hbody⟩ ha₂
    obtain ⟨us₄, _, hend', ha₄⟩ := alike_expect (by simp) hend ha₃
    unfold read
    simp only [hc', bind, Except.bind, hbody', hend']
    exact ⟨_, us₄, ⟨_, rfl⟩, by simp only [unlocated, hsame], ha₄⟩
  next p ts₁ =>
    obtain ⟨⟨x, ts₂, h₂⟩, hx, h⟩ := bind_eq_ok.mp h
    obtain ⟨⟨ts₃, h₃⟩, hfrom, h⟩ := bind_eq_ok.mp h
    obtain ⟨⟨a, ts₄, h₄⟩, hfirst, h⟩ := bind_eq_ok.mp h
    obtain ⟨⟨ts₅, h₅⟩, hto, h⟩ := bind_eq_ok.mp h
    obtain ⟨⟨b, ts₆, h₆⟩, hbound, h⟩ := bind_eq_ok.mp h
    obtain ⟨⟨body, ts₇, h₇⟩, hbody, h⟩ := bind_eq_ok.mp h
    obtain ⟨⟨ts₈, h₈⟩, hend, h⟩ := bind_eq_ok.mp h
    cases h
    obtain ⟨q, us₁, rfl, ha₁⟩ := ha.cons (by simp)
    obtain ⟨us₂, _, hx', ha₂⟩ := alike_expectName hx ha₁
    obtain ⟨us₃, _, hfrom', ha₃⟩ := alike_expect (by simp) hfrom ha₂
    obtain ⟨us₄, ⟨_, hfirst'⟩, ha₄⟩ := Expr.alike_read ⟨_, hfirst⟩ ha₃
    obtain ⟨us₅, _, hto', ha₅⟩ := alike_expect (by simp) hto ha₄
    obtain ⟨us₆, ⟨_, hbound'⟩, ha₆⟩ := Expr.alike_read ⟨_, hbound⟩ ha₅
    obtain ⟨body', us₇, ⟨_, hbody'⟩, hsame, ha₇⟩ := alike_readBlock (w := w) ⟨_, hbody⟩ ha₆
    obtain ⟨us₈, _, hend', ha₈⟩ := alike_expect (by simp) hend ha₇
    unfold read
    simp only [hx', bind, Except.bind, hfrom', hfirst', hto', hbound', hbody', hend']
    exact ⟨_, us₈, ⟨_, rfl⟩, by simp only [unlocated, hsame], ha₈⟩
  next p ts₁ =>
    obtain ⟨⟨f, ts₂, h₂⟩, hf, h⟩ := bind_eq_ok.mp h
    obtain ⟨⟨ps, ts₃, h₃⟩, hps, h⟩ := bind_eq_ok.mp h
    obtain ⟨q, us₁, rfl, ha₁⟩ := ha.cons (by simp)
    obtain ⟨us₂, _, hf', ha₂⟩ := alike_expectName hf ha₁
    obtain ⟨us₃, ⟨_, hps'⟩, ha₃⟩ := alike_params ⟨_, hps⟩ ha₂
    obtain ⟨hkeep, hmark⟩ := alike_preserveMark ha₃
    dsimp only at h
    generalize preserveMark ts₃ = mark at h hkeep hmark
    obtain ⟨keep, ts₄, h₄⟩ := mark
    dsimp only at h hkeep hmark
    obtain ⟨⟨body, ts₅, h₅⟩, hbody, h⟩ := bind_eq_ok.mp h
    obtain ⟨⟨ts₆, h₆⟩, hend, h⟩ := bind_eq_ok.mp h
    cases h
    obtain ⟨body', us₅, ⟨_, hbody'⟩, hsame, ha₅⟩ := alike_readBlock (w := w) ⟨_, hbody⟩ hmark
    obtain ⟨us₆, _, hend', ha₆⟩ := alike_expect (by simp) hend ha₅
    unfold read
    simp only [hf', bind, Except.bind, hps', hbody', hend']
    exact ⟨_, us₆, ⟨_, rfl⟩, by simp only [unlocated, hsame, hkeep], ha₆⟩
  next p ts₁ =>
    obtain ⟨⟨l, ts₂, h₂⟩, hl, h⟩ := bind_eq_ok.mp h
    cases h
    obtain ⟨q, us₁, rfl, ha₁⟩ := ha.cons (by simp)
    obtain ⟨us₂, _, hl', ha₂⟩ := alike_expectName hl ha₁
    unfold read
    simp only [hl', bind, Except.bind]
    exact ⟨_, us₂, ⟨_, rfl⟩, rfl, ha₂⟩
  next l p p' ts₁ =>
    cases h
    obtain ⟨q, us₁, rfl, ha₁⟩ := ha.cons (by simp)
    obtain ⟨q', us₂, rfl, ha₂⟩ := ha₁.cons (by simp)
    unfold read
    exact ⟨_, us₂, ⟨_, rfl⟩, rfl, ha₂⟩
  next hif hwhile hfor hfun hgoto hlabel =>
    have hunmarked : Unmarked ts₀ := by
      refine ⟨fun k hk p vs hvs => ?_, hlabel⟩
      simp only [List.mem_cons, List.not_mem_nil, or_false] at hk
      rcases hk with rfl | rfl | rfl | rfl | rfl
      · exact hif p vs hvs
      · exact hwhile p vs hvs
      · exact hfor p vs hvs
      · exact hfun p vs hvs
      · exact hgoto p vs hvs
    rw [read_of_unmarked w (hunmarked.alike ha)]
    exact alike_simple ⟨_, h⟩ ha
termination_by (ts.length, 0)
decreasing_by
  all_goals
    apply Prod.Lex.left
    simp only [List.length_cons] at *
    omega

theorem alike_readBlock {o w : Origin} {ending : Ending} {b : Block} {ts us rest : List Token}
    (h : Leaves (readBlock o ending ts) b rest) (ha : Alike ts us) :
    ∃ b' rest', Leaves (readBlock w ending us) b' rest' ∧ unlocatedAll b' = unlocatedAll b ∧
      Alike rest rest' := by
  -- Both lists are read from their first lexeme on, which they have in common.
  suffices hsuff : ∃ b' rest', Leaves (readBlock w ending (skipLineEnds us)) b' rest' ∧
      unlocatedAll b' = unlocatedAll b ∧ Alike rest rest' by
    obtain ⟨b', rest', hread, hrest⟩ := hsuff
    exact ⟨b', rest', leaves_readBlock_skipLineEnds.mp hread, hrest⟩
  replace h := leaves_readBlock_skipLineEnds.mpr h
  replace ha := ha.skipLineEnds
  have hle := length_skipLineEnds_le ts
  generalize hts : skipLineEnds ts = ts₀ at h ha hle
  obtain ⟨hrest, h⟩ := h
  cases ts₀ with
  | nil =>
      rw [ha.symm.eq_nil (skipLineEnds_idem us)]
      unfold readBlock at h ⊢
      dsimp only at h ⊢
      split at h
      next hfile =>
        cases h
        exact ⟨[], [], ⟨Nat.le_refl _, if_pos hfile⟩, rfl, rfl⟩
      next => cases h
  | cons t ts₁ =>
      obtain ⟨l, p⟩ := t
      have hl : l ≠ .newline := lexeme_ne_newline_of_skipLineEnds hts
      obtain ⟨q, us₁, hus, ha₁⟩ := ha.cons hl
      rw [hus] at ha ⊢
      rw [readBlock] at h ⊢
      dsimp only at h ⊢
      split at h
      next hstop =>
        cases h
        rw [if_pos hstop]
        exact ⟨[], _, ⟨_, rfl⟩, rfl, ha⟩
      next hstop =>
        obtain ⟨⟨s, ts₂, h₂⟩, hs, h⟩ := bind_eq_ok.mp h
        obtain ⟨_, hline, h⟩ := bind_eq_ok.mp h
        obtain ⟨⟨more, ts₃, h₃⟩, hmore, h⟩ := bind_eq_ok.mp h
        cases h
        obtain ⟨s', us₂, ⟨_, hs'⟩, hsame, ha₂⟩ := alike_read (w := w) ⟨_, hs⟩ ha
        obtain ⟨more', us₃, ⟨_, hmore'⟩, hsame', ha₃⟩ := alike_readBlock (w := w) ⟨_, hmore⟩ ha₂
        rw [if_neg hstop, if_neg hl]
        simp only [hs', bind, Except.bind, alike_lineEnd hline ha₂, hmore']
        exact ⟨_, us₃, ⟨_, rfl⟩, by simp only [unlocatedAll, hsame, hsame'], ha₃⟩
termination_by (ts.length, 1)
decreasing_by
  · exact Prod.Lex.right' _ hle (Nat.lt_succ_self _)
  · exact Prod.Lex.left _ _ (Nat.lt_of_lt_of_le h₂ hle)

end

end Stmt

/-! ## Reading files -/

theorem DataItem.readAll_skipLineEnds (ts : List Token) : readAll (skipLineEnds ts) = readAll ts := by
  induction ts with
  | nil => rfl
  | cons t ts ih =>
      by_cases ht : t.lexeme = .newline
      · obtain ⟨l, p⟩ := t
        obtain rfl : l = .newline := ht
        rw [skipLineEnds_cons_newline rfl, ih, readAll]
      · rw [skipLineEnds_cons ht]

theorem DataItem.alike_readAll_cons {item : DataItem} {ts us rest : List Token}
    {items : List DataItem}
    (h : (do
      let (more, r) ← readAll ts
      return (item :: more, r)) = .ok (items, rest))
    (ih : ∀ {more}, readAll ts = .ok (more, rest) →
      ∃ rest', readAll (skipLineEnds us) = .ok (more, rest') ∧ Alike rest rest') :
    ∃ rest', (do
      let (more, r) ← readAll us
      return (item :: more, r)) = .ok (items, rest') ∧ Alike rest rest' := by
  obtain ⟨⟨more, r⟩, hread, h⟩ := bind_eq_ok.mp h
  cases h
  obtain ⟨rest', hread', hrest⟩ := ih hread
  rw [readAll_skipLineEnds] at hread'
  exact ⟨rest', by rw [hread']; rfl, hrest⟩

theorem DataItem.alike_readAll {ts us rest : List Token} {items : List DataItem}
    (h : readAll ts = .ok (items, rest)) (ha : Alike ts us) :
    ∃ rest', readAll us = .ok (items, rest') ∧ Alike rest rest' := by
  -- Before each item the line ends of both lists are left out at once.
  replace ha := ha.skipLineEnds
  rw [← readAll_skipLineEnds us]
  generalize skipLineEnds us = us at ha
  induction ts using readAll.induct generalizing us items with
  | case1 p ts =>
      rw [readAll] at h
      cases h
      rw [skipLineEnds_cons (by simp)] at ha
      obtain ⟨q, us, rfl, hus⟩ := ha.cons (by simp)
      exact ⟨us, by rw [readAll], hus⟩
  | case2 p ts ih =>
      rw [readAll] at h
      exact ih h us ha
  | case3 x p q ts ih =>
      rw [readAll] at h
      rw [skipLineEnds_cons (by simp)] at ha
      obtain ⟨p', us, rfl, hus⟩ := ha.cons (by simp)
      obtain ⟨q', vs, rfl, hvs⟩ := hus.cons (by simp)
      rw [readAll]
      exact alike_readAll_cons h fun hread => ih hread _ hvs.skipLineEnds
  | case4 s p ts ih =>
      rw [readAll] at h
      rw [skipLineEnds_cons (by simp)] at ha
      obtain ⟨p', us, rfl, hus⟩ := ha.cons (by simp)
      rw [readAll]
      exact alike_readAll_cons h fun hread => ih hread _ hus.skipLineEnds
  | case5 n p ts hn ih =>
      rw [readAll, if_pos hn] at h
      rw [skipLineEnds_cons (by simp)] at ha
      obtain ⟨p', us, rfl, hus⟩ := ha.cons (by simp)
      rw [readAll, if_pos hn]
      exact alike_readAll_cons h fun hread => ih hread _ hus.skipLineEnds
  | case6 n p ts hn =>
      rw [readAll, if_neg hn] at h
      cases h
  | case7 p n q ts hn ih =>
      rw [readAll, if_pos hn] at h
      rw [skipLineEnds_cons (by simp)] at ha
      obtain ⟨p', us, rfl, hus⟩ := ha.cons (by simp)
      obtain ⟨q', vs, rfl, hvs⟩ := hus.cons (by simp)
      rw [readAll, if_pos hn]
      exact alike_readAll_cons h fun hread => ih hread _ hvs.skipLineEnds
  | case8 p n q ts hn =>
      rw [readAll, if_neg hn] at h
      cases h
  | case9 p ts hts =>
      rw [readAll] at h
      · cases h
      · exact hts
  | case10 ts =>
      rw [readAll] at h
      · cases h
      all_goals assumption

namespace Source

theorem alike_readData {ts us rest : List Token} {items : List DataItem}
    (h : readData ts = .ok (items, rest)) (ha : Alike ts us) :
    ∃ rest', readData us = .ok (items, rest') ∧ Alike rest rest' := by
  unfold readData at h
  split at h
  next p ts =>
    obtain ⟨⟨items', r⟩, hread, h⟩ := bind_eq_ok.mp h
    obtain ⟨_, hline, h⟩ := bind_eq_ok.mp h
    cases h
    obtain ⟨q, us, rfl, hus⟩ := ha.cons (by simp)
    obtain ⟨rest', hread', hrest⟩ := DataItem.alike_readAll hread hus
    refine ⟨rest', ?_, hrest⟩
    simp only [readData, hread', bind, Except.bind, Stmt.alike_lineEnd hline hrest]
    rfl
  next hdata =>
    cases h
    refine ⟨us, ?_, ha⟩
    unfold readData
    split
    next q us =>
      obtain ⟨p, ts, rfl, -⟩ := ha.symm.cons (by simp)
      exact (hdata p ts rfl).elim
    next => rfl

theorem read_of_gist {o w : Origin} {ts us : List Token} {s : Source} (h : read o ts = .ok s)
    (hgist : gist (ts.map Token.lexeme) = gist (us.map Token.lexeme)) :
    ∃ s', read w us = .ok s' ∧ s'.unlocated = s.unlocated := by
  obtain ⟨⟨items, r⟩, hdata, h⟩ := bind_eq_ok.mp h
  obtain ⟨⟨code, rest, hrest⟩, hcode, h⟩ := bind_eq_ok.mp h
  cases h
  obtain ⟨r', hdata', hr⟩ := alike_readData hdata (.of_gist hgist)
  obtain ⟨code', rest', ⟨hrest', hcode'⟩, hsame, -⟩ :=
    Stmt.alike_readBlock (w := w) ⟨hrest, hcode⟩ hr
  refine ⟨⟨items, code'⟩, ?_, by simp only [unlocated, hsame]⟩
  rw [read, ← skipLineEnds, hdata']
  simp only [bind, Except.bind, hcode']
  rfl

/-- What has the same gist is read alike, and refused alike. -/
theorem read_toOption_eq {o w : Origin} {ts us : List Token}
    (hgist : gist (ts.map Token.lexeme) = gist (us.map Token.lexeme)) :
    (read o ts).toOption.map unlocated = (read w us).toOption.map unlocated := by
  cases h : read o ts with
  | ok s =>
      obtain ⟨s', h', hsame⟩ := read_of_gist (w := w) h hgist
      simp [h', Except.toOption, hsame]
  | error e =>
      cases h' : read w us with
      | ok s' =>
          obtain ⟨s, hs, -⟩ := read_of_gist (w := o) h' hgist.symm
          rw [h] at hs
          exact nomatch hs
      | error e' => rfl

end Source

end BrownLang
