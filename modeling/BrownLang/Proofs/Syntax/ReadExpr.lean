import BrownLang.Expr.Read
import BrownLang.Proofs.Syntax.Canonical

/-!
# Reading expressions back

Tokens that spell a canonical expression are read as this expression, whatever
their positions, and whatever comes next as long as it does not go on with the
expression.
-/

namespace BrownLang

open Reader

/-- Reading gives `a`, and leaves tokens that spell `ls`. -/
def Reads {α : Type} {P : List Token → Prop}
    (r : Except ReadFailure (α × { rest : List Token // P rest })) (a : α) (ls : List Lexeme) :
    Prop :=
  ∃ rest h, r = .ok (a, ⟨rest, h⟩) ∧ rest.map Token.lexeme = ls

theorem spell_cons {ts : List Token} {l : Lexeme} {ls : List Lexeme}
    (h : ts.map Token.lexeme = l :: ls) :
    ∃ p rest, ts = ⟨l, p⟩ :: rest ∧ rest.map Token.lexeme = ls := by
  obtain ⟨⟨_, p⟩, rest, rfl, rfl, hrest⟩ := List.map_eq_cons_iff.mp h
  exact ⟨p, rest, rfl, hrest⟩

namespace Expr

/-- No parenthesis and no bracket opens here, so a name before it is a variable. -/
def Calm (ls : List Lexeme) : Prop :=
  ls.head? ≠ some (.punct .lparen) ∧ ls.head? ≠ some (.punct .lbracket)

structure Closed (ls : List Lexeme) : Prop where
  calm : Calm ls
  no_operator : ∀ o, ls.head? ≠ some (.operator o)

def closes : Lexeme → Bool
  | .punct .lparen | .punct .lbracket | .operator _ => false
  | _ => true

theorem Closed.cons {l : Lexeme} {ls : List Lexeme} (h : closes l) : Closed (l :: ls) where
  calm := by
    constructor <;>
      · rintro ⟨⟩
        cases h
  no_operator o := by
    rintro ⟨⟩
    cases h

def begins : Lexeme → Bool
  | .name _ | .number _ | .operator .and | .punct .lparen | .punct .lbracket => true
  | _ => false

theorem lexemes_begins (e : Expr) : ∃ l ls, e.lexemes = l :: ls ∧ begins l := by
  cases e <;> exact ⟨_, _, rfl, rfl⟩

theorem argLexemes_begins (a : Expr) (args : List Expr) :
    ∃ l ls, argLexemes (a :: args) = l :: ls ∧ begins l := by
  obtain ⟨l, ls, ha, hl⟩ := lexemes_begins a
  cases args with
  | nil => exact ⟨l, ls, ha, hl⟩
  | cons b args =>
      refine ⟨l, ls ++ .punct .comma :: argLexemes (b :: args), ?_, hl⟩
      rw [argLexemes, ha, List.cons_append]
      simp

theorem climb_of_no_operator (min : Nat) (l : Expr) {ts : List Token}
    (h : ∀ o, (ts.map Token.lexeme).head? ≠ some (.operator o)) :
    climb min l ts = .ok (l, .all ts) := by
  unfold climb
  split
  next o p rest => exact absurd rfl (h o)
  next => rfl

theorem reads_binary_of_operand (min : Nat) {ts : List Token} {e : Expr} {ls : List Lexeme}
    (h : Reads (primary ts) e ls) (hls : ∀ o, ls.head? ≠ some (.operator o)) :
    Reads (binary min ts) e ls := by
  obtain ⟨rest, hlt, hread, rfl⟩ := h
  refine ⟨rest, hlt, ?_, rfl⟩
  unfold binary
  simp only [hread, bind, Except.bind, climb_of_no_operator min e hls]
  rfl

theorem reads_binary_of_operator {ts : List Token} {o : Operator} {l r : Expr}
    {ls ls' : List Lexeme} (hl : Reads (primary ts) l (.operator o :: ls))
    (hr : ∀ ts', ts'.map Token.lexeme = ls → Reads (primary ts') r ls')
    (hls : ∀ o, ls'.head? ≠ some (.operator o)) :
    Reads (binary 0 ts) (.bin (.known o) l r) ls' := by
  obtain ⟨rest, hlt, hread, hrest⟩ := hl
  obtain ⟨p, right, rfl, hright⟩ := spell_cons hrest
  obtain ⟨last, hlt', hread', rfl⟩ :=
    reads_binary_of_operand (o.level + 1) (hr right hright) hls
  refine ⟨last, ?_, ?_, rfl⟩
  · simp only [List.length_cons] at hlt
    omega
  have hclimb := climb_of_no_operator 0 (.bin (.known o) l r) hls
  unfold binary
  simp only [hread, bind, Except.bind]
  unfold climb
  simp only [Nat.zero_le, if_true, hread', bind, Except.bind, hclimb]
  rfl

theorem primary_of_name {x : String} {p : Position} {rest : List Token}
    (h : Calm (rest.map Token.lexeme)) :
    primary (⟨.name x, p⟩ :: rest) = .ok (.var x, ⟨rest, Nat.lt_succ_self _⟩) := by
  unfold primary
  cases rest with
  | nil => rfl
  | cons t rest =>
      obtain ⟨l, q⟩ := t
      cases l with
      | punct s =>
          cases s with
          | lparen => exact absurd rfl h.1
          | lbracket => exact absurd rfl h.2
          | _ => rfl
      | _ => rfl

theorem primary_of_call {f : String} {p q : Position} {rest : List Token} {args : List Expr}
    {ls : List Lexeme} (hhead : (rest.map Token.lexeme).head? ≠ some (.punct .rparen))
    (h : Reads (arguments rest) args (.punct .rparen :: ls)) :
    Reads (primary (⟨.name f, p⟩ :: ⟨.punct .lparen, q⟩ :: rest)) (.call f args) ls := by
  obtain ⟨rest', hlt, hread, hrest'⟩ := h
  obtain ⟨r, last, rfl, hlast⟩ := spell_cons hrest'
  refine ⟨last, ?_, ?_, hlast⟩
  · simp only [List.length_cons] at hlt ⊢
    omega
  unfold primary
  cases rest with
  | nil => simp at hlt
  | cons t more =>
      obtain ⟨l, s⟩ := t
      cases l with
      | punct k =>
          cases k with
          | rparen => exact absurd rfl hhead
          | _ =>
              simp only [hread, expect]
              rfl
      | _ =>
          simp only [hread, expect]
          rfl

mutual

theorem reads_primary (e : Expr) (he : e.wellFormed) {ts : List Token} {ls : List Lexeme}
    (h : ts.map Token.lexeme = e.lexemes ++ ls) (hls : Calm ls) : Reads (primary ts) e ls := by
  have hbracket : Closed (.punct .rbracket :: ls) := .cons rfl
  have hparen : Closed (.punct .rparen :: ls) := .cons rfl
  match e with
  | lit n =>
      obtain ⟨p, rest, rfl, hrest⟩ := spell_cons h
      have hn : n < Word.count := by simpa [wellFormed] using he
      unfold primary
      simp only [expectWord, if_pos hn]
      exact ⟨rest, _, rfl, hrest⟩
  | var x =>
      obtain ⟨p, rest, rfl, hrest⟩ := spell_cons h
      have hls' : rest.map Token.lexeme = ls := hrest
      rw [primary_of_name (by rwa [hls'])]
      exact ⟨rest, _, rfl, hrest⟩
  | addr x =>
      obtain ⟨p, rest, rfl, hrest⟩ := spell_cons h
      obtain ⟨q, last, rfl, hlast⟩ := spell_cons hrest
      unfold primary
      exact ⟨last, _, rfl, hlast⟩
  | word a =>
      simp only [lexemes, List.cons_append, List.append_assoc, List.nil_append] at h
      obtain ⟨p, rest, rfl, hrest⟩ := spell_cons h
      obtain ⟨rest', hlt, hread, hrest'⟩ := reads_binary_of_operand 0
        (reads_primary a he hrest hbracket.calm) hbracket.no_operator
      obtain ⟨q, last, rfl, hlast⟩ := spell_cons hrest'
      unfold primary
      simp only [hread, expect]
      exact ⟨last, _, rfl, hlast⟩
  | byte a =>
      simp only [lexemes, List.cons_append, List.append_assoc, List.nil_append] at h
      obtain ⟨p, opening, rfl, hopening⟩ := spell_cons h
      obtain ⟨q, rest, rfl, hrest⟩ := spell_cons hopening
      obtain ⟨rest', hlt, hread, hrest'⟩ := reads_binary_of_operand 0
        (reads_primary a he hrest hbracket.calm) hbracket.no_operator
      obtain ⟨q, last, rfl, hlast⟩ := spell_cons hrest'
      unfold primary
      simp only [if_true, hread, expect]
      exact ⟨last, _, rfl, hlast⟩
  | bin (.known o) l r =>
      simp only [wellFormed, Bool.and_eq_true] at he
      simp only [lexemes, BinOp.lexeme, List.cons_append, List.append_assoc, List.nil_append] at h
      obtain ⟨p, rest, rfl, hrest⟩ := spell_cons h
      have hleft := reads_primary l he.1.2 hrest ⟨by simp, by simp⟩
      have hright (ts' : List Token)
          (hts : ts'.map Token.lexeme = r.lexemes ++ .punct .rparen :: ls) :
          Reads (primary ts') r (.punct .rparen :: ls) :=
        reads_primary r he.2 hts hparen.calm
      obtain ⟨rest', hlt, hread, hrest'⟩ :=
        reads_binary_of_operator hleft hright hparen.no_operator
      obtain ⟨q, last, rfl, hlast⟩ := spell_cons hrest'
      unfold primary
      simp only [hread, expect]
      exact ⟨last, _, rfl, hlast⟩
  | bin (.unknown s) l r => exact nomatch he
  | call f [] =>
      simp only [lexemes, argLexemes, List.cons_append, List.nil_append] at h
      obtain ⟨p, opening, rfl, hopening⟩ := spell_cons h
      obtain ⟨q, closing, rfl, hclosing⟩ := spell_cons hopening
      obtain ⟨r, last, rfl, hlast⟩ := spell_cons hclosing
      unfold primary
      exact ⟨last, _, rfl, hlast⟩
  | call f (a :: args) =>
      obtain ⟨-, hargs⟩ := Bool.and_eq_true_iff.mp he
      simp only [lexemes, List.cons_append, List.append_assoc, List.nil_append] at h
      obtain ⟨p, opening, rfl, hopening⟩ := spell_cons h
      obtain ⟨q, rest, rfl, hrest⟩ := spell_cons hopening
      refine primary_of_call ?_ (reads_arguments (a :: args) (by simp) hargs hrest)
      obtain ⟨l, ls', hl, hbegins⟩ := argLexemes_begins a args
      rw [hrest, hl]
      rintro ⟨⟩
      exact nomatch hbegins

theorem reads_arguments (args : List Expr) (hne : args ≠ []) (hargs : wellFormedAll args)
    {ts : List Token} {ls : List Lexeme}
    (h : ts.map Token.lexeme = argLexemes args ++ .punct .rparen :: ls) :
    Reads (arguments ts) args (.punct .rparen :: ls) := by
  have hparen : Closed (.punct .rparen :: ls) := .cons rfl
  match args with
  | [a] =>
      simp only [wellFormedAll, Bool.and_true] at hargs
      obtain ⟨rest, hlt, hread, hrest⟩ := reads_binary_of_operand 0
        (reads_primary a hargs h hparen.calm) hparen.no_operator
      obtain ⟨q, last, rfl, hlast⟩ := spell_cons hrest
      unfold arguments
      simp only [hread]
      exact ⟨_, _, rfl, hrest⟩
  | a :: b :: more =>
      obtain ⟨ha, hmore⟩ := Bool.and_eq_true_iff.mp hargs
      simp only [argLexemes, List.cons_append, List.append_assoc] at h
      have hcomma : Closed (.punct .comma :: (argLexemes (b :: more) ++ .punct .rparen :: ls)) :=
        .cons rfl
      obtain ⟨rest, hlt, hread, hrest⟩ := reads_binary_of_operand 0
        (reads_primary a ha h hcomma.calm) hcomma.no_operator
      obtain ⟨q, rest, rfl, hrest'⟩ := spell_cons hrest
      obtain ⟨last, hlt', hread', hlast⟩ :=
        reads_arguments (b :: more) (by simp) hmore hrest'
      unfold arguments
      simp only [hread, bind, Except.bind, hread']
      exact ⟨last, _, rfl, hlast⟩

end

theorem reads_read {e : Expr} (he : e.wellFormed) {ts : List Token} {ls : List Lexeme}
    (h : ts.map Token.lexeme = e.lexemes ++ ls) (hls : Closed ls) : Reads (read ts) e ls :=
  reads_binary_of_operand 0 (reads_primary e he h hls.calm) hls.no_operator

theorem reads_readBracketed {a : Expr} (ha : a.wellFormed) {ts : List Token} {ls : List Lexeme}
    (h : ts.map Token.lexeme = .punct .lbracket :: a.lexemes ++ .punct .rbracket :: ls) :
    Reads (readBracketed ts) a ls := by
  obtain ⟨p, rest, rfl, hrest⟩ := spell_cons h
  obtain ⟨rest', hlt, hread, hrest'⟩ :=
    reads_read ha hrest (.cons rfl)
  obtain ⟨q, last, rfl, hlast⟩ := spell_cons hrest'
  refine ⟨last, ?_, ?_, hlast⟩
  · simp only [List.length_cons] at hlt ⊢
    omega
  unfold readBracketed
  simp only [expect, Lexeme.kind, if_true, bind, Except.bind, hread]
  rfl

end Expr

theorem Target.reads_read {t : Target} (ht : t.wellFormed) {ts : List Token} {ls : List Lexeme}
    (h : ts.map Token.lexeme = t.lexemes ++ ls) (hls : Expr.Calm ls) : Reads (read ts) t ls := by
  cases t with
  | var x =>
      obtain ⟨p, rest, rfl, hrest⟩ := spell_cons h
      have hrest' : rest.map Token.lexeme = ls := hrest
      subst hrest'
      rw [read]
      · exact ⟨rest, Nat.lt_succ_self _, rfl, rfl⟩
      · exact fun _ _ heq => nomatch heq
      · rintro _ _ _ ⟨⟩
        exact hls.2 rfl
  | word a =>
      simp only [lexemes, List.cons_append, List.append_assoc, List.nil_append] at h
      obtain ⟨p, rest, rfl, -⟩ := spell_cons h
      obtain ⟨last, hlt, hread, hlast⟩ := Expr.reads_readBracketed (a := a) ht h
      refine ⟨last, hlt, ?_, hlast⟩
      unfold read
      simp only [hread]
      rfl
  | byte a =>
      simp only [lexemes, List.cons_append, List.append_assoc, List.nil_append] at h
      obtain ⟨p, opening, rfl, hopening⟩ := spell_cons h
      obtain ⟨q, rest, rfl, -⟩ := spell_cons hopening
      obtain ⟨last, hlt, hread, hlast⟩ := Expr.reads_readBracketed (a := a) ht hopening
      refine ⟨last, Nat.lt_succ_of_lt hlt, ?_, hlast⟩
      unfold read
      simp only [hread]
      rfl

end BrownLang
