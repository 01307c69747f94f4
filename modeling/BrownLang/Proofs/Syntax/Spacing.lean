import Mathlib.Logic.Relation
import BrownLang.Proofs.Structured.Desugaring
import BrownLang.Proofs.Syntax.Layout
import BrownLang.Proofs.Syntax.Spans

/-!
# The layout of a text

Blanks and comments where a piece of a text ends, empty lines, and line ends
that are written as semicolons: a text can be changed in these ways, one change
after the other, and the source that is read from it stays the same.  The
scanner finds the same lexemes, some line ends apart, because a piece that holds
a lexeme does not notice what comes after it as long as that keeps it apart.
-/

namespace BrownLang

namespace Token

/-! ## The lexemes of a text -/

def lexemes? (cs : List Char) : Option (List Lexeme) :=
  (scanFrom .start cs).toOption.map fun (ts, _) => ts.map lexeme

theorem lexemes_of_scanFrom (p q : Position) (cs : List Char) :
    (scanFrom p cs).toOption.map (fun (ts, _) => ts.map lexeme) =
      (scanFrom q cs).toOption.map fun (ts, _) => ts.map lexeme := by
  induction p, cs using scanFrom.induct generalizing q with
  | case1 p => rw [scanFrom, scanFrom]; rfl
  | case2 p c rest r hpiece =>
      rw [scanFrom, hpiece, scanFrom, hpiece]
      rfl
  | case3 p c rest more hpiece ih =>
      rw [scanFrom, hpiece, scanFrom, hpiece]
      exact ih _
  | case4 p c rest l more hpiece ih =>
      have htail := ih (q.past (c :: rest.take more))
      rw [scanFrom, hpiece, scanFrom, hpiece]
      dsimp only
      cases hp : scanFrom (p.past (c :: rest.take more)) (rest.drop more) <;>
        cases hq : scanFrom (q.past (c :: rest.take more)) (rest.drop more) <;>
        simp_all [Except.toOption, bind, Except.bind, pure, Except.pure]

theorem lexemes?_nil : lexemes? [] = some [] := by
  rw [lexemes?, scanFrom]
  rfl

theorem lexemes?_cons {c : Char} {more rest : List Char} {l? : Option Lexeme}
    (h : piece c (more ++ rest) = .ok ⟨l?, more.length⟩) :
    lexemes? (c :: (more ++ rest)) = (lexemes? rest).map (l?.toList ++ ·) := by
  rw [lexemes?, scanFrom, h, lexemes?, lexemes_of_scanFrom .start (Position.start.past (c :: more))]
  cases l? with
  | none =>
      simp only [List.take_left, List.drop_left, Option.toList_none, List.nil_append,
        Option.map_id']
  | some l =>
      simp only [List.take_left, List.drop_left]
      cases scanFrom (Position.start.past (c :: more)) rest <;> rfl

theorem lexemes?_newline (cs : List Char) :
    lexemes? ('\n' :: cs) = (lexemes? cs).map (.newline :: ·) := by
  have hpiece : piece '\n' ([] ++ cs) = .ok ⟨some .newline, 0⟩ := rfl
  exact lexemes?_cons hpiece

theorem lexemes?_semicolon (cs : List Char) :
    lexemes? (';' :: cs) = (lexemes? cs).map (.newline :: ·) := by
  have hpiece : piece ';' ([] ++ cs) = .ok ⟨some .newline, 0⟩ := rfl
  exact lexemes?_cons hpiece

theorem lexemes?_dropWhile (cs : List Char) : lexemes? (cs.dropWhile isSpacing) = lexemes? cs := by
  cases cs with
  | nil => rfl
  | cons c cs =>
      by_cases hc : isSpacing c
      · have hpiece : piece c (cs.takeWhile isSpacing ++ cs.dropWhile isSpacing) =
            .ok ⟨none, (cs.takeWhile isSpacing).length⟩ := by
          rw [List.takeWhile_append_dropWhile, piece_of_isSpacing hc]
        have hlexemes := lexemes?_cons hpiece
        rw [List.takeWhile_append_dropWhile] at hlexemes
        rw [List.dropWhile_cons_of_pos hc, hlexemes]
        simp
      · rw [List.dropWhile_cons_of_neg hc]

theorem lexemes?_blank {b cs : List Char} (h : Blank b cs) : lexemes? (b ++ cs) = lexemes? cs := by
  cases h with
  | spacing hb =>
      rw [← lexemes?_dropWhile, List.dropWhile_append_of_pos hb, lexemes?_dropWhile]
  | @comment b _ hb hcs =>
      have hpiece : piece '#' (b ++ cs) = .ok ⟨none, b.length⟩ := by
        rw [piece, if_neg (by decide), if_neg (by decide), if_pos rfl, takeWhile_of_head?]
        · rintro c hc
          have hne : c ≠ '\n' := by
            rintro rfl
            exact hb hc
          simpa using hne
        · intro c hc
          simp [hcs c hc]
      rw [List.cons_append, lexemes?_cons hpiece]
      simp

end Token

namespace Layout

open Token

/-! ## Changes of layout -/

/-- What comes after a piece is changed, but no lexeme with it. -/
inductive Retouches : List Char → List Char → Prop
  | blank {b cs} : Blank b cs → Retouches cs (b ++ cs)
  | line {cs} : Closes cs → Retouches cs ('\n' :: cs)
  | semicolon {cs} : Retouches (';' :: cs) ('\n' :: cs)

/--
One change of the layout of a text: an empty line before the first, or a change
where whole pieces have been cut off.
-/
inductive Relaid : List Char → List Char → Prop
  | opening {cs} : Relaid cs ('\n' :: cs)
  | after {front cs cs' q ts} : Cuts q cs .start (front ++ cs) ts → Retouches cs cs' →
      Relaid (front ++ cs) (front ++ cs')

namespace Retouches

variable {cs cs' : List Char}

theorem mayFollow (h : Retouches cs cs') (l : Lexeme) : MayFollow (some l) cs cs' := by
  have hapart {c : Char} {ds : List Char} (hc : separates c) : Apart (c :: ds) := by
    rintro d ⟨⟩
    exact hc
  cases h with
  | blank hb =>
      cases hb with
      | spacing hb =>
          rename_i b
          cases b with
          | nil => exact .inl rfl
          | cons c b =>
              exact .inr (.inr ⟨rfl, hapart (by simp [separates, hb c List.mem_cons_self])⟩)
      | comment hb hcs => exact .inr (.inr ⟨rfl, hapart (by decide)⟩)
  | line hcs => exact .inr (.inr ⟨rfl, hapart (by decide)⟩)
  | semicolon => exact .inr (.inr ⟨rfl, hapart (by decide)⟩)

theorem lexemes?_blank (h : Retouches cs cs') {b : List Char} (hb : Blank b cs) :
    lexemes? (b ++ cs') = lexemes? cs' := by
  cases hb with
  | spacing hb => exact Token.lexemes?_blank (.spacing hb)
  | @comment b _ hb hcs =>
      cases h with
      | @blank b' _ hb' =>
          have hnewline : '\n' ∉ b' := by
            cases hb' with
            | spacing hb' => exact fun hmem => absurd (hb' _ hmem) (by decide)
            | comment hb' _ => simpa using hb'
          have hwhole : Blank ('#' :: (b ++ b')) cs := .comment (by simp [hb, hnewline]) hcs
          rw [Token.lexemes?_blank hb', ← Token.lexemes?_blank hwhole, List.cons_append,
            List.cons_append, List.append_assoc]
      | line _ =>
          refine Token.lexemes?_blank (.comment hb ?_)
          rintro d ⟨⟩
          rfl
      | semicolon => exact absurd (hcs ';' rfl) (by decide)

theorem settled_eq (h : Retouches cs cs') :
    (lexemes? cs).map settled = (lexemes? cs').map settled := by
  cases h with
  | blank hb => rw [Token.lexemes?_blank hb]
  | line hcs =>
      rw [lexemes?_newline]
      cases cs with
      | nil =>
          rw [lexemes?_nil]
          rfl
      | cons c cs =>
          obtain rfl := hcs c rfl
          rw [lexemes?_newline]
          cases lexemes? cs <;> rfl
  | semicolon => rw [lexemes?_semicolon, lexemes?_newline]

end Retouches

theorem lexemes?_of_cuts {p q : Position} {cs left : List Char} {ts : List Token}
    (h : Cuts q left p cs ts) :
    ∃ front, cs = front ++ left ∧ ∀ left', Retouches left left' →
      lexemes? (front ++ left') = (lexemes? left').map (ts.map lexeme ++ ·) := by
  induction h with
  | done => exact ⟨[], rfl, fun left' _ => by simp⟩
  | @lexeme p c rest l ts more hpiece _ ih =>
      obtain ⟨front, rfl, hfront⟩ := ih
      refine ⟨c :: (more ++ front), by simp, fun left' hleft => ?_⟩
      have hfollow : MayFollow (some l) (front ++ left) (front ++ left') := by
        cases front with
        | nil => exact hleft.mayFollow l
        | cons d front => exact .inl rfl
      have hpiece' := (settled_of_piece hpiece rfl).2 _ hfollow
      rw [List.cons_append, List.append_assoc, lexemes?_cons hpiece', hfront left' hleft]
      simp [Function.comp_def]
  | @blank p c rest ts more hpiece _ ih =>
      obtain ⟨front, rfl, hfront⟩ := ih
      refine ⟨c :: (more ++ front), by simp, fun left' hleft => ?_⟩
      rw [← hfront left' hleft]
      cases front with
      | nil =>
          have hblank := (settled_of_piece hpiece rfl).1 rfl
          have hlexemes := hleft.lexemes?_blank hblank
          simpa using hlexemes
      | cons d front =>
          have hpiece' := (settled_of_piece hpiece rfl).2 (d :: front ++ left') (.inl rfl)
          rw [List.cons_append, List.append_assoc, lexemes?_cons hpiece']
          simp

theorem Relaid.gist_eq {cs cs' : List Char} (h : Relaid cs cs') :
    (lexemes? cs).map gist = (lexemes? cs').map gist := by
  cases h with
  | opening =>
      rw [lexemes?_newline, Option.map_map]
      congr 1
      funext ls
      rw [Function.comp_apply, gist, gist, dropWhile_settled, dropWhile_settled]
      rfl
  | @after front cs cs' q ts hcuts hretouches =>
      obtain ⟨front', hsplit, hlexemes⟩ := lexemes?_of_cuts hcuts
      obtain rfl := List.append_cancel_right hsplit
      have hsettled := hretouches.settled_eq
      have hbefore := hlexemes cs (.blank (b := []) (.spacing (by simp)))
      rw [hbefore, hlexemes cs' hretouches]
      have hgist (ls : List Lexeme) :
          gist (ts.map lexeme ++ ls) = (settled (ts.map lexeme ++ ls)).dropWhile isLineEnd := rfl
      cases hcs : lexemes? cs with
      | none =>
          rw [hcs, Option.map_none, eq_comm, Option.map_eq_none_iff] at hsettled
          rw [hsettled]
      | some ls =>
          rw [hcs, Option.map_some, eq_comm, Option.map_eq_some_iff] at hsettled
          obtain ⟨ls', hcs', htail⟩ := hsettled
          simp only [hcs', Option.map_some, hgist, settled_append htail]

theorem gist_eq_of_relaid {cs cs' : List Char} (h : Relation.EqvGen Relaid cs cs') :
    (lexemes? cs).map gist = (lexemes? cs').map gist := by
  induction h with
  | rel cs cs' h => exact h.gist_eq
  | refl cs => rfl
  | symm cs cs' _ ih => exact ih.symm
  | trans cs cs' cs'' _ _ ih ih' => exact ih.trans ih'

end Layout

namespace Source

theorem parse_toOption_eq {file file' text text' : String}
    (h : (Token.lexemes? text.toList).map Layout.gist =
      (Token.lexemes? text'.toList).map Layout.gist) :
    (parse file text).toOption.map unlocated = (parse file' text').toOption.map unlocated := by
  have hparse (file text : String) : (parse file text).toOption.map unlocated =
      (Token.scan text).toOption.bind fun (ts, _) =>
        (read (Origin.ofText file text) ts).toOption.map unlocated := by
    rw [parse]
    cases Token.scan text with
    | error e => rfl
    | ok r =>
        obtain ⟨ts, last⟩ := r
        simp only [bind, Except.bind, Except.toOption, Option.bind]
        cases read (Origin.ofText file text) ts <;> rfl
  rw [Token.lexemes?, Token.lexemes?, ← Token.scan, ← Token.scan] at h
  rw [hparse, hparse]
  cases hscan : Token.scan text <;> cases hscan' : Token.scan text' <;> rw [hscan, hscan'] at h
  next => rfl
  next => cases h
  next => cases h
  next r r' => exact read_toOption_eq (Option.some.inj h)

/--
Both fail, or both give the same source, locations apart: the same data and
statements that are lowered to the same code.
-/
def Agree {ε ε' : Type} (x : Except ε Source) (y : Except ε' Source) : Prop :=
  ((∃ s, x = .ok s) ↔ ∃ s, y = .ok s) ∧
    ∀ s s', x = .ok s → y = .ok s' → s.unlocated = s'.unlocated ∧ s.data = s'.data ∧
      (Code.ofBlock s.code).instrs = (Code.ofBlock s'.code).instrs

theorem agree_of_toOption {ε ε' : Type} {x : Except ε Source} {y : Except ε' Source}
    (h : x.toOption.map unlocated = y.toOption.map unlocated) : Agree x y := by
  cases x with
  | error e =>
      cases y with
      | error e' => exact ⟨by simp, nofun⟩
      | ok s' => cases h
  | ok s =>
      cases y with
      | error e' => cases h
      | ok s' =>
          refine ⟨⟨fun _ => ⟨s', rfl⟩, fun _ => ⟨s, rfl⟩⟩, ?_⟩
          rintro _ _ ⟨⟩ ⟨⟩
          have hsame : s.unlocated = s'.unlocated := Option.some.inj h
          have hcode : Stmt.unlocatedAll s.code = Stmt.unlocatedAll s'.code := congrArg code hsame
          have hdata : s.unlocated.data = s'.unlocated.data := congrArg data hsame
          refine ⟨hsame, hdata, ?_⟩
          rw [Code.ofBlock, Code.ofBlock, ← Stmt.instrs_lowerAll_unlocated, hcode,
            Stmt.instrs_lowerAll_unlocated]

/--
Layout says nothing.  Two lists of tokens with the same gist are both refused or
both read, and then as the same source, locations apart.  So it is with two
texts, one of which is the other with blanks, comments, empty lines and line
ends in the place of semicolons added or taken away.
-/
theorem layout_says_nothing :
    (∀ (o o' : Origin) (ts us : List Token),
      Layout.gist (ts.map Token.lexeme) = Layout.gist (us.map Token.lexeme) →
      Agree (read o ts) (read o' us)) ∧
    ∀ file file' text text' : String, Relation.EqvGen Layout.Relaid text.toList text'.toList →
      Agree (parse file text) (parse file' text') := by
  constructor
  · intro o o' ts us hgist
    exact agree_of_toOption (read_toOption_eq hgist)
  · intro file file' text text' hrelaid
    exact agree_of_toOption (parse_toOption_eq (Layout.gist_eq_of_relaid hrelaid))

theorem cuts_call (left : List Char) :
    ∃ q ts, Token.Cuts q left .start ('f' :: '(' :: ')' :: left) ts := by
  have hclose : Token.piece ')' ([] ++ left) = .ok ⟨some (.punct .rparen), 0⟩ := by
    cases left <;> rfl
  exact ⟨_, _, .lexeme [] (by rfl) (.lexeme [] (by rfl) (.lexeme [] hclose .done))⟩

theorem two_calls_relaid :
    let text := "f();g()"
    let text' := "f()# twice\n\ng()"
    let ts : List Token := [⟨.name "f", ⟨1, 1⟩⟩, ⟨.punct .lparen, ⟨1, 2⟩⟩, ⟨.punct .rparen, ⟨1, 3⟩⟩]
    let us : List Token := ⟨.newline, ⟨1, 1⟩⟩ :: ts ++ [⟨.newline, ⟨2, 1⟩⟩, ⟨.newline, ⟨3, 1⟩⟩]
    Relation.EqvGen Layout.Relaid text.toList text'.toList ∧
      Agree (parse "one" text) (parse "three" text') ∧
      (∃ s, parse "one" text = .ok s) ∧
      Layout.gist (ts.map Token.lexeme) = Layout.gist (us.map Token.lexeme) ∧
      Agree (read (Origin.ofText "one" text) ts) (read (Origin.ofText "three" text') us) := by
  intro text text' ts us
  have hrelaid : Relation.EqvGen Layout.Relaid text.toList text'.toList := by
    obtain ⟨q, ts, hcuts⟩ := cuts_call (';' :: "g()".toList)
    obtain ⟨q₁, ts₁, hcuts₁⟩ := cuts_call ('\n' :: "g()".toList)
    obtain ⟨q₂, ts₂, hcuts₂⟩ := cuts_call ('\n' :: '\n' :: "g()".toList)
    have hcloses (cs : List Char) : Token.Closes ('\n' :: cs) := by
      rintro c ⟨⟩
      rfl
    have htext : text.toList = ['f', '(', ')'] ++ ';' :: "g()".toList := by decide
    have htext' : text'.toList =
        ['f', '(', ')'] ++ ('#' :: " twice".toList ++ '\n' :: '\n' :: "g()".toList) := by decide
    rw [htext, htext']
    refine .trans _ _ _ (.rel _ _ (.after hcuts .semicolon)) ?_
    refine .trans _ _ _ (.rel _ _ (.after hcuts₁ (.line (hcloses _)))) ?_
    exact .rel _ _ (.after hcuts₂ (.blank (.comment (by decide) (hcloses _))))
  have hgist : Layout.gist (ts.map Token.lexeme) = Layout.gist (us.map Token.lexeme) := by
    rfl
  have hparse : ∃ s, parse "one" text = .ok s := ⟨_, by dsimp only [text]; cbv⟩
  exact ⟨hrelaid, layout_says_nothing.2 _ _ _ _ hrelaid, hparse, hgist,
    layout_says_nothing.1 _ _ _ _ hgist⟩

end Source

end BrownLang
