import Mathlib.Data.List.Basic
import Mathlib.Data.List.Induction
import BrownLang.Proofs.Syntax.Pieces

/-!
# Tokens tile the text

The scanner drops nothing but blanks and comments.  Each token has a span of the
text, which alone gives that token again, and its position is that of the first
character of the span.  The spans follow one another, and what lies before,
between and after them is blank.

The pieces that the scanner cuts off are the relation `Token.Cuts`.  It also
says how far scanning comes in a text that is refused.
-/

namespace BrownLang

/-! ## Positions and offsets -/

namespace Position

/--
The position of the character at the offset `i` of a text: lines are counted by
the line feeds before it, and columns by the characters since the last of them.
-/
def ofOffset (cs : List Char) (i : Nat) : Position :=
  ⟨1 + (cs.take i).count '\n', 1 + ((cs.take i).reverse.takeWhile (· != '\n')).length⟩

theorem past_start (cs : List Char) : start.past cs = ofOffset cs cs.length := by
  unfold ofOffset
  rw [List.take_length]
  induction cs using List.reverseRecOn with
  | nil => rfl
  | append_singleton cs c ih =>
      rw [past_append, ih, past_cons, past_nil, List.count_append, List.reverse_append]
      by_cases hc : c = '\n'
      · simp [advance, hc]
        omega
      · simp [advance, hc]
        omega

theorem ofOffset_append (cs rest : List Char) :
    ofOffset (cs ++ rest) cs.length = start.past cs := by
  rw [past_start, ofOffset, ofOffset, List.take_left, List.take_length]

end Position

namespace Token

/-! ## Cutting a text into pieces -/

/--
Whole pieces are cut off a text whose first character stands at `p`, and hold
the tokens `ts`.  The text `left` remains, and begins at `q`.
-/
inductive Cuts (q : Position) (left : List Char) : Position → List Char → List Token → Prop
  | done : Cuts q left q left []
  | lexeme {p c rest l ts} (more) : piece c (more ++ rest) = .ok ⟨some l, more.length⟩ →
      Cuts q left (p.past (c :: more)) rest ts →
      Cuts q left p (c :: (more ++ rest)) (⟨l, p⟩ :: ts)
  | blank {p c rest ts} (more) : piece c (more ++ rest) = .ok ⟨none, more.length⟩ →
      Cuts q left (p.past (c :: more)) rest ts → Cuts q left p (c :: (more ++ rest)) ts

theorem Cuts.split {p q : Position} {cs left : List Char} {ts : List Token}
    (h : Cuts q left p cs ts) : ∃ front, cs = front ++ left ∧ q = p.past front := by
  induction h with
  | done => exact ⟨[], rfl, rfl⟩
  | @lexeme p c rest l ts more _ _ ih | @blank p c rest ts more _ _ ih =>
      obtain ⟨front, rfl, rfl⟩ := ih
      exact ⟨c :: (more ++ front), by simp, by rw [← Position.past_append, List.cons_append]⟩

/--
Scanning ends.  It cuts up the whole text, or comes to a place where no piece
begins.
-/
theorem cuts_of_scanFrom (p : Position) (cs : List Char) :
    (∃ ts last, scanFrom p cs = .ok (ts, last) ∧ Cuts last [] p cs ts) ∨
      ∃ ts q c rest r, scanFrom p cs = .error (r.errorAt q (c :: rest)) ∧
        Cuts q (c :: rest) p cs ts ∧ piece c rest = .error r := by
  induction p, cs using scanFrom.induct with
  | case1 p => exact .inl ⟨[], p, by rw [scanFrom], .done⟩
  | case2 p c rest r hpiece =>
      exact .inr ⟨[], p, c, rest, r, by rw [scanFrom, hpiece], .done, hpiece⟩
  | case3 p c rest more hpiece ih =>
      rw [scanFrom, hpiece]
      obtain ⟨taken, rest, rfl, rfl, -⟩ := piece_settled hpiece
      simp only [List.take_left, List.drop_left] at ih ⊢
      rcases ih with ⟨ts, last, hscan, hcuts⟩ | ⟨ts, q, d, rest', r, hscan, hcuts, hr⟩
      · exact .inl ⟨ts, last, hscan, .blank taken hpiece hcuts⟩
      · exact .inr ⟨ts, q, d, rest', r, hscan, .blank taken hpiece hcuts, hr⟩
  | case4 p c rest l more hpiece ih =>
      rw [scanFrom, hpiece]
      obtain ⟨taken, rest, rfl, rfl, -⟩ := piece_settled hpiece
      simp only [List.take_left, List.drop_left] at ih ⊢
      rcases ih with ⟨ts, last, hscan, hcuts⟩ | ⟨ts, q, d, rest', r, hscan, hcuts, hr⟩
      · refine .inl ⟨⟨l, p⟩ :: ts, last, ?_, .lexeme taken hpiece hcuts⟩
        rw [hscan]
        rfl
      · refine .inr ⟨⟨l, p⟩ :: ts, q, d, rest', r, ?_, .lexeme taken hpiece hcuts, hr⟩
        rw [hscan]
        rfl

theorem cuts_of_scan {text : String} {ts : List Token} {last : Position}
    (h : scan text = .ok (ts, last)) : Cuts last [] .start text.toList ts := by
  rcases cuts_of_scanFrom .start text.toList with ⟨us, last', hscan, hcuts⟩ | ⟨_, _, _, _, _, hscan, -⟩
  · rw [scan, hscan] at h
    cases h
    exact hcuts
  · rw [scan, hscan] at h
    cases h

/-! ## Spans -/

def slice (text : List Char) (s e : Nat) : List Char := (text.take e).drop s

/-- Blanks and comments, one after the other, and the text that follows. -/
inductive Skipped (rest : List Char) : List Char → Prop
  | none : Skipped rest []
  | blank {cs gap} : Blank cs (gap ++ rest) → Skipped rest gap → Skipped rest (cs ++ gap)

/--
The token is the one between two offsets: it has the position of the first, and
the text between them is scanned to this token alone.
-/
structure SpelledBy (text : List Char) (s e : Nat) (t : Token) : Prop where
  lt : s < e
  inside : e ≤ text.length
  position : t.position = .ofOffset text s
  alone : scan (String.ofList (slice text s e)) =
    .ok ([⟨t.lexeme, .start⟩], .ofOffset (slice text s e) (e - s))

/-- The tokens lie one after the other from the offset `i` of the text on, blanks apart. -/
inductive Tiles (text : List Char) : Nat → List Token → Prop
  | done {i} : i ≤ text.length → Skipped [] (text.drop i) → Tiles text i []
  | token {i s e t ts} : i ≤ s → Skipped (text.drop s) (slice text i s) → t.SpelledBy text s e →
      Tiles text e ts → Tiles text i (t :: ts)

theorem slice_append (before cs rest : List Char) :
    slice (before ++ (cs ++ rest)) before.length (before.length + cs.length) = cs := by
  rw [slice, ← List.append_assoc, ← List.length_append, List.take_left, List.drop_left]

theorem slice_split {text : List Char} {i j k : Nat} (hij : i ≤ j) (hjk : j ≤ k) :
    slice text i k = slice text i j ++ slice text j k := by
  unfold slice
  obtain ⟨m, rfl⟩ := Nat.exists_eq_add_of_le hij
  obtain ⟨n, rfl⟩ := Nat.exists_eq_add_of_le hjk
  simp only [List.drop_take]
  rw [← List.drop_drop]
  have hm : i + m - i = m := by omega
  have hn : i + m + n - i = m + n := by omega
  have hk : i + m + n - (i + m) = n := by omega
  rw [hm, hn, hk, List.take_add]

theorem slice_append_drop {text : List Char} {i j : Nat} (hij : i ≤ j) :
    slice text i j ++ text.drop j = text.drop i := by
  obtain ⟨m, rfl⟩ := Nat.exists_eq_add_of_le hij
  rw [slice, List.drop_take, ← List.drop_drop, Nat.add_sub_cancel_left, List.take_append_drop]

theorem Tiles.skip {text : List Char} {i j : Nat} {ts : List Token} (hij : i ≤ j)
    (hblank : Blank (slice text i j) (text.drop j)) (h : Tiles text j ts) : Tiles text i ts := by
  cases h with
  | done hj hskipped =>
      refine .done (hij.trans hj) ?_
      rw [← slice_append_drop hij]
      refine .blank ?_ hskipped
      rwa [List.append_nil]
  | @token _ s e t ts hjs hskipped hspelled hrest =>
      refine .token (hij.trans hjs) ?_ hspelled hrest
      rw [slice_split hij hjs]
      refine .blank ?_ hskipped
      rwa [slice_append_drop hjs]

theorem spelledBy_of_piece (before : List Char) {more rest : List Char} {c : Char} {l : Lexeme}
    (h : piece c (more ++ rest) = .ok ⟨some l, more.length⟩) :
    SpelledBy (before ++ ((c :: more) ++ rest)) before.length (before.length + (c :: more).length)
      ⟨l, Position.start.past before⟩ := by
  have halone := (settled_of_piece h rfl).2 [] (.of_closes .nil)
  rw [List.append_nil] at halone
  refine ⟨?_, ?_, (Position.ofOffset_append _ _).symm, ?_⟩
  · rw [List.length_cons]
    omega
  · simp only [List.length_append]
    omega
  · rw [slice_append, Nat.add_sub_cancel_left, scan, String.toList_ofList, scanFrom, halone,
      ← Position.past_start]
    simp only [List.take_length, List.drop_length, scanFrom]
    rfl

theorem Cuts.tiles (before : List Char) {cs : List Char} {last : Position} {ts : List Token}
    (h : Cuts last [] (Position.start.past before) cs ts) :
    Tiles (before ++ cs) before.length ts := by
  generalize hp : Position.start.past before = p at h
  induction h generalizing before with
  | done =>
      refine .done (by simp) ?_
      rw [List.append_nil, List.drop_length]
      exact .none
  | @lexeme p c rest l ts more hpiece _ ih =>
      subst hp
      have htail := ih (before ++ c :: more) (Position.past_append _ _ _)
      rw [List.append_assoc, List.cons_append, List.length_append] at htail
      refine .token (Nat.le_refl _) ?_ (spelledBy_of_piece before hpiece) htail
      rw [slice, List.drop_take, Nat.sub_self]
      exact .none
  | @blank p c rest ts more hpiece _ ih =>
      subst hp
      have htail := ih (before ++ c :: more) (Position.past_append _ _ _)
      rw [List.append_assoc, List.cons_append, List.length_append] at htail
      refine .skip (Nat.le_add_right _ _) ?_ htail
      have hslice := slice_append before (c :: more) rest
      have hdrop : (before ++ c :: (more ++ rest)).drop (before.length + (c :: more).length) =
          rest := by
        rw [← List.cons_append, ← List.append_assoc, ← List.length_append, List.drop_left]
      rw [List.cons_append] at hslice
      rw [hslice, hdrop]
      exact (settled_of_piece hpiece rfl).1 rfl

theorem last_of_scan {text : String} {ts : List Token} {last : Position}
    (h : scan text = .ok (ts, last)) : last = .ofOffset text.toList text.length := by
  obtain ⟨front, htext, rfl⟩ := (cuts_of_scan h).split
  rw [List.append_nil] at htext
  rw [← htext, Position.past_start, String.length_toList]

/--
Every text that can be scanned is tiled by its tokens, and the scanner comes to
its end.
-/
theorem scan_tiles {text : String} {ts : List Token} {last : Position}
    (h : scan text = .ok (ts, last)) :
    Tiles text.toList 0 ts ∧ last = .ofOffset text.toList text.length :=
  ⟨Cuts.tiles [] (cuts_of_scan h), last_of_scan h⟩

theorem call_tiles :
    let text := "f(0x1F)\t# once\n"
    let ts : List Token := [⟨.name "f", ⟨1, 1⟩⟩, ⟨.punct .lparen, ⟨1, 2⟩⟩, ⟨.number 31, ⟨1, 3⟩⟩,
      ⟨.punct .rparen, ⟨1, 7⟩⟩, ⟨.newline, ⟨1, 15⟩⟩]
    scan text = .ok (ts, ⟨2, 1⟩) ∧ Tiles text.toList 0 ts := by
  intro text ts
  have hscan : scan text = .ok (ts, ⟨2, 1⟩) := by
    dsimp only [text]
    cbv
  exact ⟨hscan, (scan_tiles hscan).1⟩

end Token

end BrownLang
