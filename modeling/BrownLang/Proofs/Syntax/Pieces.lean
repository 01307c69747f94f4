import Mathlib.Data.List.TakeWhile
import BrownLang.Proofs.Syntax.WellFormed
import BrownLang.Proofs.Syntax.Scanning

/-!
# What a piece depends on

The scanner decides on a piece by the characters of the piece and the one after
it.  So a piece stays what it is when the text after it is replaced by one that
begins alike, by a line end or by nothing at all, and if it holds a lexeme, by a
blank: `piece_settled`.  A piece is refused for a fault inside the text, or for
a number of too many digits: `fault_of_piece`.
-/

namespace BrownLang.Token

def Closes (cs : List Char) : Prop := ∀ c, cs.head? = some c → c = '\n'

theorem Closes.nil : Closes [] := nofun

def separates (c : Char) : Bool := isSpacing c || c == '#' || c == ';' || c == '\n'

def Apart (cs : List Char) : Prop := ∀ c, cs.head? = some c → separates c

theorem Closes.apart {cs : List Char} (h : Closes cs) : Apart cs := by
  intro c hc
  rw [h c hc]
  decide

theorem separates_cases {c : Char} (h : separates c) :
    c = ' ' ∨ c = '\t' ∨ c = '\r' ∨ c = '#' ∨ c = ';' ∨ c = '\n' := by
  simpa [separates, isSpacing, or_assoc] using h

theorem Apart.delimited {cs : List Char} (h : Apart cs) : Delimited cs := by
  intro c hc
  rcases separates_cases (h c hc) with rfl | rfl | rfl | rfl | rfl | rfl <;> decide

/-- Where `rest` follows a piece that holds this lexeme, if any, `rest'` could as well. -/
def MayFollow (lexeme? : Option Lexeme) (rest rest' : List Char) : Prop :=
  rest'.head? = rest.head? ∨ Closes rest' ∨ (lexeme?.isSome ∧ Apart rest')

theorem MayFollow.of_closes {lexeme? : Option Lexeme} {rest rest' : List Char}
    (h : Closes rest') : MayFollow lexeme? rest rest' := .inr (.inl h)

theorem MayFollow.head? {lexeme? : Option Lexeme} {rest rest' : List Char}
    (h : MayFollow lexeme? rest rest') : rest'.head? = rest.head? ∨ Apart rest' :=
  h.imp id fun h => h.elim Closes.apart And.right

theorem MayFollow.delimited {lexeme? : Option Lexeme} {rest rest' : List Char}
    (h : MayFollow lexeme? rest rest') (hrest : Delimited rest) : Delimited rest' := by
  rcases h.head? with hhead | hapart
  · intro c hc
    exact hrest c (hhead ▸ hc)
  · exact hapart.delimited

theorem Delimited.of_filter {cs : List Char} (h : cs.head?.filter isNamePart = none) :
    Delimited cs := by
  intro c hc
  rw [hc] at h
  simpa [Option.filter] using h

theorem takeWhile_of_head? {q : Char → Bool} {cs rest : List Char} (hcs : ∀ c ∈ cs, q c)
    (hrest : ∀ c, rest.head? = some c → q c = false) : (cs ++ rest).takeWhile q = cs := by
  have hstop : rest.takeWhile q = [] := by
    cases rest with
    | nil => rfl
    | cons d rest => exact List.takeWhile_cons_of_neg (by simp [hrest d rfl])
  rw [List.takeWhile_append_of_pos hcs, hstop, List.append_nil]

theorem MayFollow.takeWhile {q : Char → Bool} {cs rest' : List Char} (hq : q '\n' = false)
    (h : MayFollow none (cs.dropWhile q) rest') :
    (cs.takeWhile q ++ rest').takeWhile q = cs.takeWhile q := by
  refine takeWhile_of_head? (fun c hc => List.mem_takeWhile_imp hc) fun c hc => ?_
  rcases h with hhead | hcloses | ⟨hsome, -⟩
  · have hstop := List.head?_dropWhile_not q cs
    rw [← hhead, hc] at hstop
    simpa using hstop
  · rw [hcloses c hc, hq]
  · cases hsome

theorem closes_dropWhile (cs : List Char) : Closes (cs.dropWhile (· != '\n')) := by
  intro c hc
  have hstop := List.head?_dropWhile_not (· != '\n') cs
  rw [hc] at hstop
  simpa using hstop

inductive Blank : List Char → List Char → Prop
  | spacing {cs rest} : (∀ c ∈ cs, isSpacing c) → Blank cs rest
  | comment {cs rest} : '\n' ∉ cs → Closes rest → Blank ('#' :: cs) rest

inductive Refusal.IsFault (n : Nat) : Refusal → Prop
  | intro {cause offset} : offset ≤ n → IsFault n (.fault cause offset)

theorem Refusal.IsFault.mono {m n : Nat} {r : Refusal} (h : r.IsFault m) (hmn : m ≤ n) :
    r.IsFault n := by
  cases h with
  | intro hoffset => exact .intro (hoffset.trans hmn)

def Refusal.Within (n : Nat) : Refusal → Prop
  | fault _ offset => offset ≤ n
  | tooManyDigits => True

theorem Refusal.Within.mono {m n : Nat} {r : Refusal} (h : r.Within m) (hmn : m ≤ n) :
    r.Within n := by
  cases r with
  | fault cause offset => exact Nat.le_trans h hmn
  | tooManyDigits => trivial

theorem Refusal.IsFault.within {n : Nat} {r : Refusal} (h : r.IsFault n) : r.Within n := by
  cases h with
  | intro hoffset => exact hoffset

/-! ## Signs -/

theorem pair?_of_separates (c : Char) {d : Char} (hd : separates d) : pair? c d = none := by
  unfold pair?
  split
  case h_8 => rfl
  all_goals exact absurd hd (by decide)

theorem pair?_newline (c : Char) : pair? c '\n' = none := pair?_of_separates c (by decide)

theorem sign?_settled {c : Char} {cs : List Char} {p : Piece} (h : sign? c cs = some p) :
    ∃ more rest, cs = more ++ rest ∧ p.more = more.length ∧
      ∀ rest', MayFollow p.lexeme rest rest' → sign? c (more ++ rest') = some p := by
  unfold sign? at h
  split at h
  next l hl =>
    cases h
    obtain ⟨d, hd, hpair⟩ := Option.bind_eq_some_iff.mp hl
    obtain ⟨rest, rfl⟩ := List.head?_eq_some_iff.mp hd
    refine ⟨[d], rest, rfl, rfl, fun rest' _ => ?_⟩
    rw [sign?, List.cons_append, List.head?_cons, Option.bind_some, hpair]
  next hnone =>
    obtain ⟨l, hl, rfl⟩ := Option.map_eq_some_iff.mp h
    refine ⟨[], cs, rfl, rfl, fun rest' hrest' => ?_⟩
    have hpair : rest'.head?.bind (pair? c) = none := by
      rcases hrest'.head? with hhead | hapart
      · rwa [hhead]
      · cases rest' with
        | nil => rfl
        | cons d rest' => exact pair?_of_separates c (hapart d rfl)
    rw [sign?, List.nil_append, hpair, hl]
    rfl

theorem lexeme_of_sign {c : Char} {cs : List Char} {p : Piece} (h : sign? c cs = some p) :
    p.lexeme.isSome := by
  unfold sign? at h
  split at h
  next =>
    cases h
    rfl
  next =>
    obtain ⟨l, -, rfl⟩ := Option.map_eq_some_iff.mp h
    rfl

/-! ## Numbers -/

section

variable {base skip : Nat} {isDigit : Char → Bool} {mark : String} {cs : List Char}

theorem run_of_digits
    (h : ∀ cause offset, digits base isDigit mark skip cs ≠ .error (.fault cause offset)) :
    ∃ run rest, cs = run ++ rest ∧ (∀ c ∈ run, isDigit c || c == '_') ∧
      run.filter (· != '_') ≠ [] ∧ Delimited rest := by
  have hall (c : Char) (hc : c ∈ cs.takeWhile fun c => isDigit c || c == '_') :
      isDigit c || c == '_' := List.mem_takeWhile_imp (p := fun c => isDigit c || c == '_') hc
  have hsplit := List.prefix_iff_eq_append.mp
    (List.takeWhile_prefix (p := fun c => isDigit c || c == '_') (l := cs))
  unfold digits at h
  dsimp only at h
  generalize cs.takeWhile (fun c => isDigit c || c == '_') = run at h hall hsplit
  refine ⟨run, _, hsplit.symm, hall, ?_, ?_⟩
  · intro hnone
    rw [hnone] at h
    exact h _ _ rfl
  · split at h
    next => exact absurd rfl (h _ _)
    next =>
      split at h
      next => exact absurd rfl (h _ _)
      next hstop _ => exact .of_filter hstop
      next hstop _ => exact .of_filter hstop

/-- The mark of the base is for the message of a failure only. -/
theorem digits_settled {p : Piece} (hdigit : ∀ c, isDigit c → isNamePart c)
    (h : digits base isDigit mark skip cs = .ok p) :
    ∃ run rest, cs = run ++ rest ∧ run ≠ [] ∧ (∀ c ∈ run, isDigit c || c == '_') ∧
      p.lexeme.isSome ∧ p.more = skip + run.length - 1 ∧ Delimited rest ∧
      ∀ mark' rest', Delimited rest' → digits base isDigit mark' skip (run ++ rest') = .ok p := by
  obtain ⟨run, rest, rfl, hall, hsome, hrest⟩ := run_of_digits fun cause offset hfault => by
    rw [h] at hfault
    cases hfault
  have hne : run ≠ [] := by
    rintro rfl
    exact hsome rfl
  rw [digits_eq hall hsome hdigit hrest] at h
  split at h
  next n hn =>
    cases h
    refine ⟨run, rest, rfl, hne, hall, rfl, rfl, hrest, fun mark' rest' hrest' => ?_⟩
    rw [digits_eq hall hsome hdigit hrest', hn]
  next => cases h

theorem within_of_digits {r : Refusal} (h : digits base isDigit mark skip cs = .error r) :
    r.Within (skip + cs.length) := by
  have hrun := (List.takeWhile_prefix (p := fun c => isDigit c || c == '_') (l := cs)).length_le
  unfold digits at h
  dsimp only at h
  split at h
  next =>
    cases h
    exact Nat.zero_le _
  next =>
    split at h
    next =>
      cases h
      exact Nat.add_le_add_left hrun skip
    next => cases h
    next =>
      cases h
      trivial

end

theorem isNamePart_of_isHexDigit {c : Char} (h : isHexDigit c) : isNamePart c := by
  have hf : 'f' ≤ 'z' ∧ 'F' ≤ 'Z' := by decide
  simp only [isHexDigit, Bool.or_eq_true, Bool.and_eq_true, decide_eq_true_eq] at h
  rcases h with (h | h) | h
  · exact isNamePart_of_isDecimalDigit h
  · simp [isNamePart, isNameStart, h.1, Char.le_trans h.2 hf.1]
  · simp [isNamePart, isNameStart, h.1, Char.le_trans h.2 hf.2]

theorem isNamePart_of_isBinaryDigit {c : Char} (h : isBinaryDigit c) : isNamePart c := by
  simp only [isBinaryDigit, Bool.or_eq_true, beq_iff_eq] at h
  rcases h with rfl | rfl <;> decide

theorem number_of_mark {d : Char} (hd : d ∈ ['x', 'X', 'b', 'B']) :
    ∃ base isDigit mark, (∀ c, isDigit c → isNamePart c) ∧
      ∀ cs, number ('0' :: d :: cs) = digits base isDigit mark 2 cs := by
  simp only [List.mem_cons, List.not_mem_nil, or_false] at hd
  rcases hd with rfl | rfl | rfl | rfl
  · exact ⟨16, isHexDigit, "0x", fun _ => isNamePart_of_isHexDigit, fun _ => rfl⟩
  · exact ⟨16, isHexDigit, "0x", fun _ => isNamePart_of_isHexDigit, fun _ => rfl⟩
  · exact ⟨2, isBinaryDigit, "0b", fun _ => isNamePart_of_isBinaryDigit, fun _ => rfl⟩
  · exact ⟨2, isBinaryDigit, "0b", fun _ => isNamePart_of_isBinaryDigit, fun _ => rfl⟩

theorem number_of_no_mark {cs : List Char}
    (h : ∀ d rest, cs = '0' :: d :: rest → d ∉ ['x', 'X', 'b', 'B']) :
    number cs = digits 10 isDecimalDigit (String.ofList (cs.take 2)) 0 cs := by
  unfold number
  split
  case h_5 => rfl
  all_goals exact absurd (h _ _ rfl) (by decide)

theorem number_settled {c : Char} {cs : List Char} {p : Piece} (h : number (c :: cs) = .ok p) :
    ∃ more rest, cs = more ++ rest ∧ p.lexeme.isSome ∧ p.more = more.length ∧ Delimited rest ∧
      ∀ rest', Delimited rest' → number (c :: (more ++ rest')) = .ok p := by
  by_cases hmark : ∃ d rest, c :: cs = '0' :: d :: rest ∧ d ∈ ['x', 'X', 'b', 'B']
  · obtain ⟨d, rest, hcs, hd⟩ := hmark
    obtain ⟨rfl, rfl⟩ := List.cons.inj hcs
    obtain ⟨base, isDigit, mark, hdigit, hnumber⟩ := number_of_mark hd
    rw [hnumber] at h
    obtain ⟨run, rest', rfl, -, -, hsome, hmore, hrest, hrun⟩ := digits_settled hdigit h
    refine ⟨d :: run, rest', rfl, hsome, ?_, hrest, fun rest'' hrest'' => ?_⟩
    · rw [hmore, List.length_cons]
      omega
    · rw [List.cons_append, hnumber]
      exact hrun mark rest'' hrest''
  · have hnumber := number_of_no_mark fun d rest hcs hd => hmark ⟨d, rest, hcs, hd⟩
    rw [hnumber] at h
    obtain ⟨run, rest, hcs, hne, hall, hsome, hmore, hrest, hrun⟩ :=
      digits_settled (fun _ => isNamePart_of_isDecimalDigit) h
    cases run with
    | nil => exact absurd rfl hne
    | cons c' run =>
        obtain ⟨rfl, rfl⟩ := List.cons.inj hcs
        refine ⟨run, rest, rfl, hsome, by simpa using hmore, hrest, fun rest' hrest' => ?_⟩
        rw [number_of_no_mark, ← List.cons_append]
        · exact hrun _ rest' hrest'
        · -- The second character is a digit or an underscore, or belongs to no name.
          intro d rest'' heq hd
          obtain ⟨-, heq⟩ := List.cons.inj heq
          simp only [List.mem_cons, List.not_mem_nil, or_false] at hd
          cases run with
          | nil =>
              rw [List.nil_append] at heq
              have hpart := hrest' d (by rw [heq]; rfl)
              revert hpart
              rcases hd with rfl | rfl | rfl | rfl <;> decide
          | cons e run =>
              obtain ⟨rfl, -⟩ := List.cons.inj heq
              have he := hall e (by simp)
              revert he
              rcases hd with rfl | rfl | rfl | rfl <;> decide

theorem within_of_number {cs : List Char} {r : Refusal} (h : number cs = .error r) :
    r.Within cs.length := by
  by_cases hmark : ∃ d rest, cs = '0' :: d :: rest ∧ d ∈ ['x', 'X', 'b', 'B']
  · obtain ⟨d, rest, rfl, hd⟩ := hmark
    obtain ⟨base, isDigit, mark, -, hnumber⟩ := number_of_mark hd
    rw [hnumber] at h
    exact (within_of_digits h).mono (by simp only [List.length_cons]; omega)
  · rw [number_of_no_mark fun d rest hcs hd => hmark ⟨d, rest, hcs, hd⟩] at h
    exact (within_of_digits h).mono (by omega)

/-! ## Strings and characters -/

theorem stringFrom_settled {offset close : Nat} {cs s : List Char}
    (h : stringFrom offset cs = .ok (s, close)) :
    ∃ body rest, cs = body ++ '"' :: rest ∧ close = offset + body.length ∧
      ∀ rest', stringFrom offset (body ++ '"' :: rest') = .ok (s, close) := by
  induction offset, cs using stringFrom.induct generalizing s close with
  | case1 offset => cases h
  | case2 offset rest =>
      cases h
      exact ⟨[], rest, rfl, rfl, fun _ => rfl⟩
  | case3 offset rest => cases h
  | case4 offset => cases h
  | case5 offset e rest he =>
      rw [stringFrom, he] at h
      cases h
  | case6 offset e rest c he ih =>
      rw [stringFrom, he] at h
      obtain ⟨⟨s', close'⟩, hrest, h⟩ := Reader.bind_eq_ok.mp h
      cases h
      obtain ⟨body, rest', rfl, rfl, hbody⟩ := ih hrest
      refine ⟨'\\' :: e :: body, rest', rfl, by simp only [List.length_cons]; omega, ?_⟩
      intro rest''
      rw [List.cons_append, List.cons_append, stringFrom, he]
      simp only [hbody]
      rfl
  | case7 offset c rest hquote hnewline hlast hescape ih =>
      rw [stringFrom] at h
      · obtain ⟨⟨s', close'⟩, hrest, h⟩ := Reader.bind_eq_ok.mp h
        cases h
        obtain ⟨body, rest', rfl, rfl, hbody⟩ := ih hrest
        refine ⟨c :: body, rest', rfl, by simp only [List.length_cons]; omega, ?_⟩
        have hbackslash : c ≠ '\\' := fun hc => by
          cases body with
          | nil => exact hescape _ _ hc rfl
          | cons e body => exact hescape _ _ hc rfl
        intro rest''
        rw [List.cons_append, stringFrom]
        · simp only [hbody]
          rfl
        · exact hquote
        · exact hnewline
        · exact fun hc => absurd hc hbackslash
        · exact fun e rest hc => absurd hc hbackslash
      all_goals assumption

theorem fault_of_stringFrom {offset : Nat} {cs : List Char} {r : Refusal}
    (h : stringFrom offset cs = .error r) : r.IsFault (offset + cs.length) := by
  induction offset, cs using stringFrom.induct with
  | case1 offset => cases h; exact .intro (Nat.zero_le _)
  | case2 offset rest => cases h
  | case3 offset rest => cases h; exact .intro (Nat.zero_le _)
  | case4 offset => cases h; exact .intro (Nat.le_refl _)
  | case5 offset e rest he =>
      rw [stringFrom, he] at h
      cases h
      exact .intro (by simp only [List.length_cons]; omega)
  | case6 offset e rest c he ih =>
      rw [stringFrom, he] at h
      rcases Reader.bind_eq_error.mp h with h | ⟨_, -, h⟩
      · exact (ih h).mono (by simp only [List.length_cons]; omega)
      · cases h
  | case7 offset c rest hquote hnewline hlast hescape ih =>
      rw [stringFrom] at h
      · rcases Reader.bind_eq_error.mp h with h | ⟨_, -, h⟩
        · exact (ih h).mono (by simp only [List.length_cons]; omega)
        · cases h
      all_goals assumption

theorem character_settled {cs : List Char} {p : Piece} (h : character cs = .ok p) :
    ∃ more rest, cs = more ++ rest ∧ p.lexeme.isSome ∧ p.more = more.length ∧
      ∀ rest', character (more ++ rest') = .ok p := by
  unfold character at h
  split at h
  case h_5 _ e rest =>
    split at h
    next => cases h
    next c rest' he =>
      cases h
      refine ⟨['\\', e, '\''], rest', rfl, rfl, rfl, fun rest'' => ?_⟩
      simp only [List.cons_append, List.nil_append, character, he]
    next => cases h
  case h_6 _ c rest hquote hnewline hbackslash =>
    cases h
    refine ⟨[c, '\''], rest, rfl, rfl, rfl, fun rest' => ?_⟩
    rw [List.cons_append, List.singleton_append, character]
    · exact hquote
    · exact hnewline
    · exact hbackslash
  all_goals cases h

theorem fault_of_character {cs : List Char} {r : Refusal} (h : character cs = .error r) :
    r.IsFault (cs.length + 1) := by
  unfold character at h
  repeat' split at h
  all_goals cases h
  all_goals exact .intro (by simp)

/-! ## All pieces -/

theorem piece_of_quote {c : Char} (hc : c = '"' ∨ c = '\'') (rest : List Char) :
    piece c rest =
      if c = '"' then do
        let (s, close) ← stringFrom 1 rest
        return ⟨some (.string (String.ofList s)), close⟩
      else character rest := by
  have hsign : sign? c rest = none := by
    rcases hc with rfl | rfl <;> cases rest <;> rfl
  rcases hc with rfl | rfl
  · rw [piece, if_neg (by decide), if_neg (by decide), if_neg (by decide), hsign]
    rfl
  · rw [piece, if_neg (by decide), if_neg (by decide), if_neg (by decide), hsign]
    rfl

theorem isNamePart_of_isNameStart {c : Char} (h : isNameStart c) : isNamePart c := by
  simp [isNamePart, h]

/--
A piece takes in the characters `more` after the first, and is the same before
any text that may follow it.  If it holds no lexeme, it is blank.
-/
theorem piece_settled {c : Char} {cs : List Char} {p : Piece} (h : piece c cs = .ok p) :
    ∃ more rest, cs = more ++ rest ∧ p.more = more.length ∧
      (p.lexeme = none → Blank (c :: more) rest) ∧
      ∀ rest', MayFollow p.lexeme rest rest' → piece c (more ++ rest') = .ok p := by
  have lexeme {more rest : List Char} (hsome : p.lexeme.isSome) :
      p.lexeme = none → Blank (c :: more) rest := fun hnone => by
    rw [hnone] at hsome
    cases hsome
  unfold piece at h
  split at h
  next hspacing =>
    cases h
    have hmore (d : Char) (hd : d ∈ cs.takeWhile isSpacing) : isSpacing d :=
      List.mem_takeWhile_imp hd
    refine ⟨_, _, (List.takeWhile_append_dropWhile (p := isSpacing)).symm, rfl,
      fun _ => .spacing (List.forall_mem_cons.mpr ⟨hspacing, hmore⟩), fun rest' hrest' => ?_⟩
    rw [piece_of_isSpacing hspacing, hrest'.takeWhile (by decide)]
  next hspacing =>
  split at h
  next hend =>
    cases h
    refine ⟨[], cs, rfl, rfl, lexeme rfl, fun rest' _ => ?_⟩
    rw [piece, if_neg hspacing, if_pos hend]
  next hend =>
  split at h
  next hhash =>
    cases h
    have hmore (d : Char) (hd : d ∈ cs.takeWhile (· != '\n')) : d != '\n' :=
      List.mem_takeWhile_imp (p := (· != '\n')) hd
    refine ⟨_, _, (List.takeWhile_append_dropWhile (p := (· != '\n'))).symm, rfl, fun _ => ?_,
      fun rest' hrest' => ?_⟩
    · rw [hhash]
      exact .comment (fun hmem => absurd (hmore _ hmem) (by decide)) (closes_dropWhile cs)
    · rw [piece, if_neg hspacing, if_neg hend, if_pos hhash, hrest'.takeWhile (by decide)]
  next hhash =>
  split at h
  next hsign =>
    cases h
    obtain ⟨more, rest, rfl, hmore, hsettled⟩ := sign?_settled hsign
    refine ⟨more, rest, rfl, hmore, lexeme (lexeme_of_sign hsign), fun rest' hrest' => ?_⟩
    rw [piece, if_neg hspacing, if_neg hend, if_neg hhash, hsettled rest' hrest']
  next =>
  split at h
  next hquote =>
    obtain ⟨⟨s, close⟩, hstring, h⟩ := Reader.bind_eq_ok.mp h
    cases h
    obtain ⟨body, rest, rfl, rfl, hsettled⟩ := stringFrom_settled hstring
    refine ⟨body ++ ['"'], rest, by simp, ?_, lexeme rfl, fun rest' _ => ?_⟩
    · rw [List.length_append, List.length_singleton, Nat.add_comm]
    · rw [piece_of_quote (.inl hquote), if_pos hquote, List.append_assoc, List.singleton_append,
        hsettled]
      rfl
  next hdouble =>
  split at h
  next hquote =>
    obtain ⟨more, rest, rfl, hsome, hmore, hsettled⟩ := character_settled h
    refine ⟨more, rest, rfl, hmore, lexeme hsome, fun rest' _ => ?_⟩
    rw [piece_of_quote (.inr hquote), if_neg hdouble]
    exact hsettled rest'
  next =>
  split at h
  next hdigit =>
    obtain ⟨more, rest, rfl, hsome, hmore, hrest, hsettled⟩ := number_settled h
    refine ⟨more, rest, rfl, hmore, lexeme hsome, fun rest' hrest' => ?_⟩
    rw [piece_of_isNamePart (isNamePart_of_isDecimalDigit hdigit), if_pos hdigit]
    exact hsettled rest' (hrest'.delimited hrest)
  next hdigit =>
  split at h
  next hname =>
    cases h
    have hmore (d : Char) (hd : d ∈ cs.takeWhile isNamePart) : isNamePart d :=
      List.mem_takeWhile_imp hd
    refine ⟨_, _, (List.takeWhile_append_dropWhile (p := isNamePart)).symm, rfl, lexeme rfl,
      fun rest' hrest' => ?_⟩
    have hdelimited : Delimited (cs.dropWhile isNamePart) := by
      intro d hd
      have hstop := List.head?_dropWhile_not isNamePart cs
      rw [hd] at hstop
      simpa using hstop
    rw [piece_of_isNamePart (isNamePart_of_isNameStart hname), if_neg hdigit, if_pos hname,
      takeWhile_of_delimited hmore (fun _ hd => hd) (hrest'.delimited hdelimited)]
  next => cases h

theorem settled_of_piece {c : Char} {more rest : List Char} {p : Piece}
    (h : piece c (more ++ rest) = .ok p) (hmore : p.more = more.length) :
    (p.lexeme = none → Blank (c :: more) rest) ∧
      ∀ rest', MayFollow p.lexeme rest rest' → piece c (more ++ rest') = .ok p := by
  obtain ⟨more', rest', hsplit, hmore', hblank, hsettled⟩ := piece_settled h
  obtain ⟨rfl, rfl⟩ := List.append_inj hsplit (hmore.symm.trans hmore')
  exact ⟨hblank, hsettled⟩

/-- A fault is at a character of the text or at its end.  All else that is refused are numbers. -/
theorem fault_of_piece {c : Char} {cs : List Char} {r : Refusal} (h : piece c cs = .error r) :
    r.IsFault (cs.length + 1) ∨ isDecimalDigit c ∧ number (c :: cs) = .error r := by
  unfold piece at h
  split at h
  next => cases h
  next =>
  split at h
  next => cases h
  next =>
  split at h
  next => cases h
  next =>
  split at h
  next => cases h
  next =>
  split at h
  next =>
    rcases Reader.bind_eq_error.mp h with h | ⟨_, -, h⟩
    · rw [Nat.add_comm]
      exact .inl (fault_of_stringFrom h)
    · cases h
  next =>
  split at h
  next => exact .inl (fault_of_character h)
  next =>
  split at h
  next hdigit => exact .inr ⟨hdigit, h⟩
  next =>
  split at h
  next => cases h
  next =>
    cases h
    exact .inl (.intro (Nat.zero_le _))

theorem within_of_piece {c : Char} {cs : List Char} {r : Refusal} (h : piece c cs = .error r) :
    r.Within (cs.length + 1) := by
  rcases fault_of_piece h with hfault | ⟨-, hnumber⟩
  · exact hfault.within
  · exact within_of_number hnumber

end BrownLang.Token
