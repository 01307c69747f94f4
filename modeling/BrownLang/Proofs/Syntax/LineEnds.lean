import BrownLang.Proofs.Syntax.Spans

/-!
# Lines are scanned one by one

No lexeme goes on past the end of its line, and the scanner does not look past
it either: a piece of a line is what it is, or is refused as it is, whatever the
lines after it hold.  So a text can be scanned in two parts, cut at any line
feed, and what the second part gives stands as many lines further down.
-/

namespace BrownLang

namespace Token

/-! ## Pieces -/

theorem takeWhile_before_newline {q : Char → Bool} (hq : q '\n' = false) (cs ds : List Char) :
    (cs ++ '\n' :: ds).takeWhile q = cs.takeWhile q := by
  induction cs with
  | nil => exact List.takeWhile_cons_of_neg (by simp [hq])
  | cons c cs ih =>
      rw [List.cons_append, List.takeWhile_cons, List.takeWhile_cons, ih]

theorem sign?_before_newline (c : Char) (cs ds : List Char) :
    sign? c (cs ++ '\n' :: ds) = sign? c cs := by
  cases cs with
  | nil =>
      rw [sign?, sign?, List.nil_append, List.head?_cons, Option.bind_some, pair?_newline]
      rfl
  | cons d cs => rfl

/-- A line feed ends a string just as the end of the text does, and is no escape. -/
theorem stringFrom_before_newline (offset : Nat) (cs ds : List Char) :
    stringFrom offset (cs ++ '\n' :: ds) = stringFrom offset cs := by
  induction offset, cs using stringFrom.induct with
  | case1 | case2 | case3 | case4 => rfl
  | case5 offset e rest he =>
      rw [List.cons_append, List.cons_append, stringFrom, stringFrom, he]
  | case6 offset e rest c he ih =>
      rw [List.cons_append, List.cons_append, stringFrom, stringFrom, he]
      simp only [ih]
  | case7 offset c rest hquote hnewline hlast hescape ih =>
      have hbackslash : c ≠ '\\' := fun hc => by
        cases rest with
        | nil => exact hlast hc rfl
        | cons e rest => exact hescape e rest hc rfl
      rw [List.cons_append, stringFrom, stringFrom]
      · simp only [ih]
      all_goals simp_all

theorem character_before_newline (cs ds : List Char) :
    character (cs ++ '\n' :: ds) = character cs := by
  match cs with
  | [] => rfl
  | [c] =>
      by_cases hc : c = '\\' ∨ c = '\'' ∨ c = '\n'
      · rcases hc with rfl | rfl | rfl <;> rfl
      · simp only [not_or] at hc
        rw [List.singleton_append, character, character] <;> simp_all
  | c :: d :: cs =>
      by_cases hc : c = '\\' ∨ c = '\'' ∨ c = '\n'
      · rcases hc with rfl | rfl | rfl
        · cases cs with
          | nil =>
              simp only [List.cons_append, List.nil_append, character]
              cases unescape? d <;> rfl
          | cons e cs =>
              simp only [List.cons_append, character]
              cases unescape? d with
              | none => rfl
              | some v => by_cases he : e = '\'' <;> simp [he]
        · rfl
        · rfl
      · simp only [not_or] at hc
        by_cases hd : d = '\''
        · subst hd
          rw [List.cons_append, List.cons_append, character, character] <;> simp_all
        · rw [List.cons_append, List.cons_append, character, character] <;> simp_all

section

variable {base skip : Nat} {isDigit : Char → Bool}

theorem digits_before_newline (hdigit : ∀ c, isDigit c → isNamePart c) (mark : String)
    (cs ds : List Char) :
    digits base isDigit mark skip (cs ++ '\n' :: ds) = digits base isDigit mark skip cs := by
  have hnewline : isDigit '\n' = false := by
    by_contra h
    exact absurd (hdigit '\n' (by simpa using h)) (by decide)
  have hrun := takeWhile_before_newline (q := fun c => isDigit c || c == '_')
    (by simp [hnewline]) cs ds
  have hlength := (List.takeWhile_prefix (p := fun c => isDigit c || c == '_') (l := cs)).length_le
  rw [digits, digits]
  simp only [hrun, List.drop_append_of_le_length hlength]
  split
  · rfl
  · cases cs.drop (cs.takeWhile fun c => isDigit c || c == '_').length <;> rfl

theorem digits_mark {c : Char} (hc : isDigit c) (hdigit : isDigit '_' = false)
    (mark mark' : String) (cs : List Char) :
    digits base isDigit mark skip (c :: cs) = digits base isDigit mark' skip (c :: cs) := by
  have hne : c ≠ '_' := by
    rintro rfl
    rw [hc] at hdigit
    exact nomatch hdigit
  rw [digits, digits]
  simp [hc, hne]

end

theorem number_before_newline {c : Char} (hc : isDecimalDigit c) (cs ds : List Char) :
    number (c :: (cs ++ '\n' :: ds)) = number (c :: cs) := by
  by_cases hmark : ∃ d rest, c :: cs = '0' :: d :: rest ∧ d ∈ ['x', 'X', 'b', 'B']
  · obtain ⟨d, rest, hcs, hd⟩ := hmark
    obtain ⟨rfl, rfl⟩ := List.cons.inj hcs
    obtain ⟨base, isDigit, mark, hdigit, hnumber⟩ := number_of_mark hd
    rw [List.cons_append, hnumber, hnumber]
    exact digits_before_newline hdigit mark rest ds
  · have hmark' : ∀ d rest, c :: (cs ++ '\n' :: ds) = '0' :: d :: rest →
        d ∉ ['x', 'X', 'b', 'B'] := by
      intro d rest hcs hd
      cases cs with
      | nil =>
          obtain ⟨-, hcs⟩ := List.cons.inj hcs
          rw [← (List.cons.inj hcs).1] at hd
          exact absurd hd (by decide)
      | cons e cs =>
          obtain ⟨hc, hcs⟩ := List.cons.inj hcs
          obtain ⟨rfl, -⟩ := List.cons.inj hcs
          exact hmark ⟨e, cs, by rw [hc], hd⟩
    rw [number_of_no_mark hmark', number_of_no_mark fun d rest hcs hd => hmark ⟨d, rest, hcs, hd⟩,
      ← List.cons_append, digits_before_newline fun _ => isNamePart_of_isDecimalDigit]
    exact digits_mark hc (by decide) _ _ cs

theorem piece_before_newline (c : Char) (cs ds : List Char) :
    piece c (cs ++ '\n' :: ds) = piece c cs := by
  have hspacing := takeWhile_before_newline (q := isSpacing) (by decide) cs ds
  have hcomment := takeWhile_before_newline (q := (· != '\n')) (by decide) cs ds
  have hname := takeWhile_before_newline (q := isNamePart) (by decide) cs ds
  rw [piece, piece, sign?_before_newline, stringFrom_before_newline, character_before_newline]
  simp only [hspacing, hcomment, hname]
  by_cases hdigit : isDecimalDigit c
  · rw [number_before_newline hdigit]
  · simp only [hdigit, Bool.false_eq_true, if_false]

theorem more_le_of_piece {c : Char} {cs : List Char} {p : Piece} (h : piece c cs = .ok p) :
    p.more ≤ cs.length := by
  obtain ⟨more, rest, rfl, hmore, -⟩ := piece_settled h
  rw [hmore, List.length_append]
  exact Nat.le_add_right _ _

/-! ## Texts -/

theorem Refusal.Within.errorAt_append {r : Refusal} {cs : List Char} (h : r.Within cs.length)
    (p : Position) (ds : List Char) : r.errorAt p (cs ++ ds) = r.errorAt p cs := by
  cases r with
  | fault cause offset => simp only [errorAt, List.take_append_of_le_length h]
  | tooManyDigits => rfl

theorem scanFrom_newline (p : Position) (cs ds : List Char) :
    scanFrom p (cs ++ '\n' :: ds) = (do
      let (ts, q) ← scanFrom p cs
      let (us, last) ← scanFrom (q.advance '\n') ds
      return (ts ++ ⟨.newline, q⟩ :: us, last)) := by
  induction p, cs using scanFrom.induct with
  | case1 p =>
      rw [List.nil_append, scanFrom, scanFrom]
      rfl
  | case2 p c rest r hpiece =>
      have hwithin : r.Within (c :: rest).length := within_of_piece hpiece
      rw [List.cons_append, scanFrom, piece_before_newline, hpiece, scanFrom, hpiece,
        ← List.cons_append]
      simp only [hwithin.errorAt_append]
      rfl
  | case3 p c rest more hpiece ih =>
      have hmore : more ≤ rest.length := more_le_of_piece hpiece
      rw [List.cons_append, scanFrom, piece_before_newline, hpiece, scanFrom, hpiece]
      simp only [List.take_append_of_le_length hmore, List.drop_append_of_le_length hmore]
      exact ih
  | case4 p c rest l more hpiece ih =>
      have hmore : more ≤ rest.length := more_le_of_piece hpiece
      rw [List.cons_append, scanFrom, piece_before_newline, hpiece, scanFrom, hpiece]
      simp only [List.take_append_of_le_length hmore, List.drop_append_of_le_length hmore, ih,
        bind_assoc]
      rfl

end Token

/-! ## Further down -/

def Position.down (k : Nat) (p : Position) : Position := { p with line := p.line + k }

def Token.down (k : Nat) (t : Token) : Token := { t with position := t.position.down k }

def SyntaxError.down (k : Nat) : SyntaxError → SyntaxError
  | scan fault p => scan fault (p.down k)
  | parse fault p => parse fault (p.down k)
  | tooManyDigits => tooManyDigits

theorem Position.past_down (k : Nat) (p : Position) (cs : List Char) :
    (p.down k).past cs = (p.past cs).down k := by
  induction cs generalizing p with
  | nil => rfl
  | cons c cs ih =>
      have hadvance : (p.down k).advance c = (p.advance c).down k := by
        unfold advance
        split
        · simp [down, Nat.add_right_comm]
        · rfl
      rw [past_cons, past_cons, hadvance, ih]

namespace Token

theorem Refusal.errorAt_down (k : Nat) (p : Position) (cs : List Char) (r : Refusal) :
    r.errorAt (p.down k) cs = (r.errorAt p cs).down k := by
  cases r with
  | fault cause offset => simp only [errorAt, Position.past_down, SyntaxError.down]
  | tooManyDigits => rfl

/-- Where a text stands decides where its tokens, its end and its failure are, and nothing else. -/
theorem scanFrom_down (k : Nat) (p : Position) (cs : List Char) :
    scanFrom (p.down k) cs =
      ((scanFrom p cs).map fun (ts, last) => (ts.map (down k), last.down k)).mapError
        (SyntaxError.down k) := by
  induction p, cs using scanFrom.induct with
  | case1 p =>
      rw [scanFrom, scanFrom]
      rfl
  | case2 p c rest r hpiece =>
      rw [scanFrom, hpiece, scanFrom, hpiece]
      simp only [r.errorAt_down]
      rfl
  | case3 p c rest more hpiece ih =>
      rw [scanFrom, hpiece, scanFrom, hpiece]
      simp only [Position.past_down, ih]
  | case4 p c rest l more hpiece ih =>
      rw [scanFrom, hpiece, scanFrom, hpiece]
      simp only [Position.past_down, ih]
      cases scanFrom (p.past (c :: rest.take more)) (rest.drop more) <;> rfl

theorem past_newline (cs : List Char) :
    (Position.start.past cs).advance '\n' = Position.start.down (1 + cs.count '\n') := by
  rw [Position.past_start, Position.ofOffset, List.take_length]
  simp [Position.advance, Position.down, Position.start, Nat.add_comm, Nat.add_left_comm]

theorem scan_append_newline {t₁ : String} {ts : List Token} {last : Position}
    (h : scan t₁ = .ok (ts, last)) (t₂ : String) :
    scan (t₁ ++ "\n" ++ t₂) =
      ((scan t₂).map fun (us, last') =>
        let k := 1 + t₁.toList.count '\n'
        (ts ++ ⟨.newline, last⟩ :: us.map (down k), last'.down k)).mapError
          (SyntaxError.down (1 + t₁.toList.count '\n')) := by
  have htext : (t₁ ++ "\n" ++ t₂).toList = t₁.toList ++ '\n' :: t₂.toList := by simp
  obtain ⟨front, hfront, hlast⟩ := (cuts_of_scan h).split
  rw [List.append_nil] at hfront
  rw [scan] at h
  rw [scan, htext, scanFrom_newline, h, hlast, ← hfront]
  simp only [bind, Except.bind]
  rw [past_newline, scanFrom_down, scan]
  cases scanFrom .start t₂.toList <;> rfl

/--
A line feed divides a text in two.  The whole is scanned if both parts are, and
then its tokens are those of the first part, the line feed where that ends, and
those of the second part further down by the lines before it.  If a part is
refused, so is the whole, at the same place: as the first part by itself or, if
that is not refused, as the second.
-/
theorem newline_divides_text (t₁ t₂ : String) :
    let text := t₁ ++ "\n" ++ t₂
    let k := 1 + t₁.toList.count '\n'
    ((∃ r, scan text = .ok r) ↔ (∃ r, scan t₁ = .ok r) ∧ ∃ r, scan t₂ = .ok r) ∧
    (∀ ts₁ end₁ ts₂ end₂, scan t₁ = .ok (ts₁, end₁) → scan t₂ = .ok (ts₂, end₂) →
      end₁ = .ofOffset t₁.toList t₁.length ∧
      scan text = .ok (ts₁ ++ ⟨.newline, end₁⟩ :: ts₂.map (down k), end₂.down k)) ∧
    (∀ e, scan t₁ = .error e → scan text = .error e) ∧
    ∀ r e, scan t₁ = .ok r → scan t₂ = .error e → scan text = .error (e.down k) := by
  intro text k
  have hfirst (e : SyntaxError) (h : scan t₁ = .error e) : scan text = .error e := by
    have htext : text.toList = t₁.toList ++ '\n' :: t₂.toList := by simp [text]
    rw [scan] at h
    rw [scan, htext, scanFrom_newline, h]
    rfl
  have hboth {ts last} (h : scan t₁ = .ok (ts, last)) := scan_append_newline h t₂
  refine ⟨⟨?_, ?_⟩, ?_, hfirst, ?_⟩
  · rintro ⟨r, htext⟩
    cases h₁ : scan t₁ with
    | error e =>
        rw [hfirst e h₁] at htext
        cases htext
    | ok r₁ =>
        cases h₂ : scan t₂ with
        | ok r₂ => exact ⟨⟨r₁, rfl⟩, r₂, rfl⟩
        | error e =>
            have hwhole := hboth h₁
            rw [h₂, htext] at hwhole
            cases hwhole
  · rintro ⟨⟨r₁, h₁⟩, r₂, h₂⟩
    have hwhole := hboth h₁
    rw [h₂] at hwhole
    exact ⟨_, hwhole⟩
  · intro ts₁ end₁ ts₂ end₂ h₁ h₂
    have hwhole := hboth h₁
    rw [h₂] at hwhole
    exact ⟨last_of_scan h₁, hwhole⟩
  · rintro ⟨ts, last⟩ e h₁ h₂
    have hwhole := hboth h₁
    rw [h₂] at hwhole
    exact hwhole

theorem open_quotes_stay_in_line :
    let call := "f(0x1F) # \""
    let opened := "f(\"ab\\"
    let tail := "\"s\""
    scan (call ++ "\n" ++ tail) = .ok ([⟨.name "f", ⟨1, 1⟩⟩, ⟨.punct .lparen, ⟨1, 2⟩⟩,
      ⟨.number 31, ⟨1, 3⟩⟩, ⟨.punct .rparen, ⟨1, 7⟩⟩, ⟨.newline, ⟨1, 12⟩⟩,
      ⟨.string "s", ⟨2, 1⟩⟩], ⟨2, 4⟩) ∧
    scan (opened ++ "\n" ++ tail) = .error (.scan .invalidEscape ⟨1, 7⟩) := by
  intro call opened tail
  have hcall : scan call = .ok ([⟨.name "f", ⟨1, 1⟩⟩, ⟨.punct .lparen, ⟨1, 2⟩⟩,
      ⟨.number 31, ⟨1, 3⟩⟩, ⟨.punct .rparen, ⟨1, 7⟩⟩], ⟨1, 12⟩) := by
    dsimp only [call]
    cbv
  have hopened : scan opened = .error (.scan .invalidEscape ⟨1, 7⟩) := by
    dsimp only [opened]
    cbv
  have htail : scan tail = .ok ([⟨.string "s", ⟨1, 1⟩⟩], ⟨1, 4⟩) := by
    dsimp only [tail]
    cbv
  have hline : 1 + call.toList.count '\n' = 1 := by decide
  obtain ⟨-, hboth, -, -⟩ := newline_divides_text call tail
  obtain ⟨-, -, hfirst, -⟩ := newline_divides_text opened tail
  obtain ⟨-, hwhole⟩ := hboth _ _ _ _ hcall htail
  rw [hline] at hwhole
  exact ⟨hwhole, hfirst _ hopened⟩

end Token

end BrownLang
