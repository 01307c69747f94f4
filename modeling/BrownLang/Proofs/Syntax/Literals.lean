import Mathlib.Data.List.Forall2
import BrownLang.Proofs.Syntax.Scanning
import BrownLang.Proofs.Syntax.Spans

/-!
# Literals

A number can be spelled in three bases, with zeros before it, underscores in it
and hexadecimal digits of either case.  A character between quotes can be
spelled as itself or by an escape.  The scanner reads each of these spellings
as what it spells, and takes nothing else for a literal.  Only on numbers of too
many digits does it give up: `Token.Overlong`.
-/

namespace BrownLang

/-! ## Digits -/

namespace Token

inductive Base where
  | decimal | hexadecimal | binary

namespace Base

def value : Base → Nat
  | decimal => 10
  | hexadecimal => 16
  | binary => 2

def isDigit : Base → Char → Bool
  | decimal => isDecimalDigit
  | hexadecimal => isHexDigit
  | binary => isBinaryDigit

def marks : Base → List (List Char)
  | decimal => [[]]
  | hexadecimal => [['0', 'x'], ['0', 'X']]
  | binary => [['0', 'b'], ['0', 'B']]

variable (b : Base)

theorem one_lt_value : 1 < b.value := by
  cases b <;> decide

theorem isNamePart_of_isDigit {c : Char} (h : b.isDigit c) : isNamePart c := by
  cases b with
  | decimal => exact isNamePart_of_isDecimalDigit h
  | hexadecimal => exact isNamePart_of_isHexDigit h
  | binary => exact isNamePart_of_isBinaryDigit h

end Base

/-- The character is the digit, or the digit as a capital. -/
def SameDigit (c x : Char) : Prop := c = x ∨ c = x.toUpper

theorem Base.isDigit_of_sameDigit (b : Base) {d : Nat} (hd : d < b.value) {c : Char}
    (h : SameDigit c (Nat.digitChar d)) : b.isDigit c ∧ Text.digitValue c = d := by
  rcases h with rfl | rfl <;> cases b <;> revert d <;> decide

theorem toNat_lt_of_isNamePart {c : Char} (h : isNamePart c) : c.toNat < 128 := by
  simp only [isNamePart, isNameStart, isDecimalDigit, Bool.or_eq_true, Bool.and_eq_true,
    decide_eq_true_eq, beq_iff_eq, Char.le_def, UInt32.le_iff_toNat_le] at h
  have hz : ('z' : Char).val.toNat = 122 := rfl
  have hZ : ('Z' : Char).val.toNat = 90 := rfl
  have hnine : ('9' : Char).val.toNat = 57 := rfl
  rw [Char.toNat]
  rcases h with ((rfl | h) | h) | h
  · decide
  all_goals omega

instance : DecidableRel SameDigit := fun _ _ => inferInstanceAs (Decidable (_ ∨ _))

theorem Base.sameDigit_of_isDigit (b : Base) {c : Char} (h : b.isDigit c) :
    Text.digitValue c < b.value ∧ SameDigit c (Nat.digitChar (Text.digitValue c)) := by
  -- Digits are ASCII, so that there are few characters to look through.
  have hascii : ∀ n < 128, b.isDigit (Char.ofNat n) →
      Text.digitValue (Char.ofNat n) < b.value ∧
        SameDigit (Char.ofNat n) (Nat.digitChar (Text.digitValue (Char.ofNat n))) := by
    cases b <;> decide +kernel
  have hc := hascii c.toNat (toNat_lt_of_isNamePart (b.isNamePart_of_isDigit h))
  rw [Char.ofNat_toNat] at hc
  exact hc h

theorem digitChar_of_mem_toDigits {base n : Nat} (hbase : 1 < base) {x : Char}
    (hx : x ∈ Nat.toDigits base n) : ∃ d < base, x = Nat.digitChar d := by
  induction n using Nat.strongRecOn with
  | ind n ih =>
      rw [Nat.toDigits_eq_if hbase] at hx
      split at hx
      next hlt => exact ⟨n, hlt, List.mem_singleton.mp hx⟩
      next hle =>
        rcases List.mem_append.mp hx with hx | hx
        · exact ih _ (Nat.div_lt_self (by omega) hbase) hx
        · exact ⟨_, Nat.mod_lt _ (by omega), List.mem_singleton.mp hx⟩

section

variable (b : Base)

theorem Base.ofDigits_toDigits (v : Nat) : Text.ofDigits b.value (Nat.toDigits b.value v) = v := by
  have hdigit {d : Nat} (hd : d < b.value) : Text.digitValue (Nat.digitChar d) = d :=
    (b.isDigit_of_sameDigit hd (.inl rfl)).2
  induction v using Nat.strongRecOn with
  | ind v ih =>
      rw [Nat.toDigits_eq_if b.one_lt_value]
      split
      next hlt =>
        rw [← List.nil_append [_], Text.ofDigits_concat, hdigit hlt]
        exact Nat.zero_add v
      next hle =>
        have hbase := b.one_lt_value
        rw [Text.ofDigits_concat, ih _ (Nat.div_lt_self (by omega) hbase),
          hdigit (Nat.mod_lt _ (by omega)), Nat.div_add_mod]

theorem Base.isDigit_of_forall₂ {ds xs : List Char} (h : List.Forall₂ SameDigit ds xs)
    (hxs : ∀ x ∈ xs, ∃ d < b.value, x = Nat.digitChar d) :
    (∀ c ∈ ds, b.isDigit c) ∧ ds.map Text.digitValue = xs.map Text.digitValue := by
  induction h with
  | nil => exact ⟨nofun, rfl⟩
  | @cons c x ds xs hc _ ih =>
      obtain ⟨⟨d, hd, rfl⟩, hrest⟩ := List.forall_mem_cons.mp hxs
      obtain ⟨hdigit, hvalue⟩ := b.isDigit_of_sameDigit hd hc
      obtain ⟨-, hvalue'⟩ := b.isDigit_of_sameDigit hd (.inl rfl)
      obtain ⟨hall, hmap⟩ := ih hrest
      refine ⟨List.forall_mem_cons.mpr ⟨hdigit, hall⟩, ?_⟩
      rw [List.map_cons, List.map_cons, hmap, hvalue, hvalue']

theorem Base.ofDigits_numeral {v zeros : Nat} {ds : List Char}
    (h : List.Forall₂ SameDigit ds (List.replicate zeros '0' ++ Nat.toDigits b.value v)) :
    (∀ c ∈ ds, b.isDigit c) ∧ Text.ofDigits b.value ds = v := by
  obtain ⟨hall, hmap⟩ := b.isDigit_of_forall₂ h fun x hx => by
    rcases List.mem_append.mp hx with hx | hx
    · exact ⟨0, Nat.zero_lt_of_lt b.one_lt_value, List.eq_of_mem_replicate hx⟩
    · exact digitChar_of_mem_toDigits b.one_lt_value hx
  refine ⟨hall, ?_⟩
  rw [Text.ofDigits_eq_of_map_eq hmap, Text.ofDigits_zeros, b.ofDigits_toDigits]

theorem Base.numeral_of_isDigit {ds : List Char} (hne : ds ≠ []) (h : ∀ c ∈ ds, b.isDigit c) :
    ∃ v zeros, List.Forall₂ SameDigit ds (List.replicate zeros '0' ++ Nat.toDigits b.value v) := by
  induction ds using List.reverseRecOn with
  | nil => exact absurd rfl hne
  | append_singleton ds c ih =>
      obtain ⟨hlt, hc⟩ := b.sameDigit_of_isDigit (h c (by simp))
      have hlast : Nat.toDigits b.value (Text.digitValue c) =
          [Nat.digitChar (Text.digitValue c)] := Nat.toDigits_of_lt_base hlt
      cases hds : ds with
      | nil => exact ⟨Text.digitValue c, 0, by rw [hlast]; exact .cons hc .nil⟩
      | cons d rest =>
          obtain ⟨v, zeros, hv⟩ := ih (by simp [hds]) fun d hd => h d (by simp [hd])
          have hboth : List.Forall₂ SameDigit (ds ++ [c])
              ((List.replicate zeros '0' ++ Nat.toDigits b.value v) ++
                [Nat.digitChar (Text.digitValue c)]) := List.rel_append hv (.cons hc .nil)
          rw [← hds]
          rcases Nat.eq_zero_or_pos v with rfl | hpos
          -- If the digits so far are all zeros, the last one is a numeral of its own.
          · refine ⟨Text.digitValue c, zeros + 1, ?_⟩
            rw [hlast, List.replicate_succ']
            rwa [Nat.toDigits_zero] at hboth
          · refine ⟨b.value * v + Text.digitValue c, zeros, ?_⟩
            rw [← Nat.toDigits_append_toDigits b.one_lt_value hpos hlt, hlast, ← List.append_assoc]
            exact hboth

end

/-! ## Numbers -/

/--
The characters spell the number `v` in the base `b`: its digits, with zeros
before them, and underscores anywhere after the mark or the first digit.
-/
def Base.Spells (b : Base) (v : Nat) (cs : List Char) : Prop :=
  ∃ mark ∈ b.marks, ∃ body zeros, cs = mark ++ body ∧ (mark = [] → body.head? ≠ some '_') ∧
    List.Forall₂ SameDigit (body.filter (· != '_'))
      (List.replicate zeros '0' ++ Nat.toDigits b.value v)

/-- The decimal digits that spell the number, or those that it has, are more than the host converts. -/
def Base.Overlong (b : Base) (v : Nat) (cs : List Char) : Prop :=
  b = .decimal ∧ Text.digitLimit < (cs.filter (· != '_')).length ∨ 10 ^ Text.digitLimit ≤ v

/-- The characters spell a number that the host does not convert. -/
def Overlong (cs : List Char) : Prop := ∃ b v, Base.Spells b v cs ∧ b.Overlong v cs

theorem isDigit_of_mem_filter {isDigit : Char → Bool} {body : List Char}
    (hbody : ∀ c ∈ body, isDigit c || c == '_') {c : Char} (hc : c ∈ body.filter (· != '_')) :
    isDigit c := by
  obtain ⟨hmem, hunderscore⟩ := List.mem_filter.mp hc
  have hdigit := hbody c hmem
  rw [bne_iff_ne] at hunderscore
  simpa [hunderscore] using hdigit

/-- The characters are `0`, and with what follows they are the mark of a base. -/
def MarksBase (cs rest : List Char) : Prop :=
  cs = ['0'] ∧ ∃ c ∈ ['x', 'X', 'b', 'B'], rest.head? = some c

theorem number_eq_decimal {body rest : List Char} (hne : body ≠ [])
    (hbody : ∀ c ∈ body, isDecimalDigit c || c == '_') (hmarks : ¬ MarksBase body rest) :
    number (body ++ rest) =
      digits 10 isDecimalDigit (String.ofList ((body ++ rest).take 2)) 0 (body ++ rest) := by
  refine number_of_no_mark fun d more hsplit hd => ?_
  match body, hsplit with
  | [], _ => exact hne rfl
  | [_], hsplit =>
      obtain ⟨rfl, hrest⟩ := List.cons.inj hsplit
      have hhead : rest = d :: more := hrest
      exact hmarks ⟨rfl, d, hd, by rw [hhead]; rfl⟩
  | _ :: e :: _, hsplit =>
      obtain ⟨-, htail⟩ := List.cons.inj hsplit
      obtain ⟨rfl, -⟩ := List.cons.inj htail
      have hdigit := hbody e (by simp)
      simp only [List.mem_cons, List.not_mem_nil, or_false] at hd
      rcases hd with rfl | rfl | rfl | rfl <;> exact absurd hdigit (by decide)

theorem Base.number_eq_digits {b : Base} {mark body : List Char} (hmark : mark ∈ b.marks)
    (hne : body ≠ []) (hbody : ∀ c ∈ body, b.isDigit c || c == '_')
    (hfirst : mark = [] → body.head? ≠ some '_') :
    (∃ c more, mark ++ body = c :: more ∧ isDecimalDigit c) ∧
      ∀ rest, ¬ MarksBase (mark ++ body) rest → ∃ m, number (mark ++ body ++ rest) =
        digits b.value b.isDigit m mark.length (body ++ rest) := by
  cases b with
  | decimal =>
      obtain rfl : mark = [] := List.mem_singleton.mp hmark
      obtain ⟨c, more, hsplit⟩ := List.exists_cons_of_ne_nil hne
      have hc : c ≠ '_' := by simpa [hsplit] using hfirst rfl
      have hdigit : isDecimalDigit c || c == '_' := hbody c (by simp [hsplit])
      exact ⟨⟨c, more, hsplit, by simpa [hc] using hdigit⟩,
        fun rest hrest => ⟨_, number_eq_decimal hne hbody hrest⟩⟩
  | hexadecimal | binary =>
      simp only [marks, List.mem_cons, List.not_mem_nil, or_false] at hmark
      rcases hmark with rfl | rfl <;> exact ⟨⟨_, _, rfl, by decide⟩, fun _ _ => ⟨_, rfl⟩⟩

theorem Base.Spells.number_eq {b : Base} {v : Nat} {cs : List Char} (h : b.Spells v cs) :
    (∃ c more, cs = c :: more ∧ isDecimalDigit c) ∧
    ∃ skip body, cs.length = skip + body.length ∧ (∀ c ∈ body, b.isDigit c || c == '_') ∧
      body.filter (· != '_') ≠ [] ∧ Text.ofDigits b.value (body.filter (· != '_')) = v ∧
      (b = .decimal → body = cs) ∧ ∀ rest, ¬ MarksBase cs rest →
        ∃ mark, number (cs ++ rest) = digits b.value b.isDigit mark skip (body ++ rest) := by
  obtain ⟨mark, hmark, body, zeros, rfl, hfirst, hnumeral⟩ := h
  obtain ⟨hdigits, hvalue⟩ := b.ofDigits_numeral hnumeral
  have hbody (c : Char) (hc : c ∈ body) : b.isDigit c || c == '_' := by
    by_cases hunderscore : c = '_'
    · simp [hunderscore]
    · simp [hdigits c (List.mem_filter.mpr ⟨hc, by simpa using hunderscore⟩)]
  have hsome : body.filter (· != '_') ≠ [] := by
    intro hnil
    have hlength := hnumeral.length_eq
    have hpos := List.length_pos_of_ne_nil (Nat.toDigits_ne_nil (n := v) (b := b.value))
    rw [hnil, List.length_nil, List.length_append] at hlength
    omega
  have hne : body ≠ [] := by
    rintro rfl
    exact hsome rfl
  obtain ⟨hhead, hnumber⟩ := Base.number_eq_digits hmark hne hbody hfirst
  refine ⟨hhead, mark.length, body, List.length_append, hbody, hsome, hvalue, ?_, hnumber⟩
  rintro rfl
  rw [List.mem_singleton.mp hmark, List.nil_append]

variable {b : Base} {v : Nat} {cs rest : List Char}

theorem Base.overlong_iff {body : List Char} (hvalue : Text.ofDigits b.value body = v)
    (hbody : b = .decimal → body = cs.filter (· != '_')) :
    Text.Overlong b.value body ↔ b.Overlong v cs := by
  have hdecimal : b.value = 10 ↔ b = .decimal := by
    cases b <;> simp [Base.value]
  rw [Text.Overlong, Base.Overlong, hvalue, hdecimal]
  refine or_congr_left (and_congr_right fun hb => ?_)
  rw [hbody hb]

theorem Base.Spells.piece_eq (h : b.Spells v cs) (hrest : Delimited rest) :
    ∃ c more, cs = c :: more ∧
      (b.Overlong v cs ∧ piece c (more ++ rest) = .error .tooManyDigits ∨
        ¬ b.Overlong v cs ∧ piece c (more ++ rest) = .ok ⟨some (.number v), more.length⟩) := by
  obtain ⟨⟨c, more, rfl, hc⟩, skip, body, hlength, hbody, hsome, hvalue, hdecimal, hnumber⟩ :=
    h.number_eq
  have hmarks : ¬ MarksBase (c :: more) rest := by
    rintro ⟨-, d, hd, hhead⟩
    have hpart := hrest d hhead
    simp only [List.mem_cons, List.not_mem_nil, or_false] at hd
    rcases hd with rfl | rfl | rfl | rfl <;> exact absurd hpart (by decide)
  obtain ⟨mark, hnumber⟩ := hnumber rest hmarks
  refine ⟨c, more, rfl, ?_⟩
  rw [piece_of_isNamePart (isNamePart_of_isDecimalDigit hc), if_pos hc, ← List.cons_append,
    hnumber, digits_eq hbody hsome (fun _ => b.isNamePart_of_isDigit) hrest,
    ← Base.overlong_iff hvalue fun hb => by rw [hdecimal hb]]
  rcases Text.convert?_eq b.value (body.filter (· != '_')) with
    ⟨hover, hnone⟩ | ⟨hshort, hsome⟩
  · exact .inl ⟨hover, by rw [hnone]⟩
  · exact .inr ⟨hshort, by rw [hsome, hvalue, ← hlength]; rfl⟩

theorem Base.numeral_of_digits {skip : Nat} {mark : String}
    (h : ∀ cause offset,
      digits b.value b.isDigit mark skip cs ≠ .error (.fault cause offset)) :
    ∃ body rest v zeros, cs = body ++ rest ∧ Delimited rest ∧ body ≠ [] ∧
      List.Forall₂ SameDigit (body.filter (· != '_'))
        (List.replicate zeros '0' ++ Nat.toDigits b.value v) := by
  obtain ⟨body, rest, rfl, hbody, hsome, hrest⟩ := run_of_digits h
  have hne : body ≠ [] := by
    rintro rfl
    exact hsome rfl
  obtain ⟨v, zeros, hv⟩ := b.numeral_of_isDigit hsome fun c hc => isDigit_of_mem_filter hbody hc
  exact ⟨body, rest, v, zeros, rfl, hrest, hne, hv⟩

theorem spells_of_number {c : Char} (hc : isDecimalDigit c)
    (h : ∀ cause offset, number (c :: cs) ≠ .error (.fault cause offset)) :
    ∃ (b : Base) (v : Nat) (more rest : List Char),
      cs = more ++ rest ∧ Delimited rest ∧ b.Spells v (c :: more) := by
  have marked {b : Base} {x : Char} {more : List Char} {mark : String} (hx : ['0', x] ∈ b.marks)
      (hsplit : c :: cs = '0' :: x :: more)
      (hdigits : ∀ cause offset,
        digits b.value b.isDigit mark 2 more ≠ .error (.fault cause offset)) :
      ∃ (b : Base) (v : Nat) (more rest : List Char),
        cs = more ++ rest ∧ Delimited rest ∧ b.Spells v (c :: more) := by
    obtain ⟨rfl, rfl⟩ := List.cons.inj hsplit
    obtain ⟨body, rest, v, zeros, rfl, hrest, -, hv⟩ := Base.numeral_of_digits hdigits
    exact ⟨b, v, x :: body, rest, rfl, hrest, ['0', x], hx, body, zeros, rfl, nofun, hv⟩
  unfold number at h
  split at h
  case h_1 hsplit => exact marked (b := .hexadecimal) (by decide) hsplit h
  case h_2 hsplit => exact marked (b := .hexadecimal) (by decide) hsplit h
  case h_3 hsplit => exact marked (b := .binary) (by decide) hsplit h
  case h_4 hsplit => exact marked (b := .binary) (by decide) hsplit h
  case h_5 =>
    obtain ⟨body, rest, v, zeros, hsplit, hrest, hne, hv⟩ :=
      Base.numeral_of_digits (b := .decimal) h
    obtain ⟨d, more, rfl⟩ := List.exists_cons_of_ne_nil hne
    obtain ⟨rfl, rfl⟩ := List.cons.inj hsplit
    refine ⟨.decimal, v, more, rest, rfl, hrest, [], by decide, c :: more, zeros, rfl, ?_, hv⟩
    rintro - hunderscore
    cases hunderscore
    exact absurd hc (by decide)

theorem overlong_of_piece {c : Char} (h : piece c cs = .error .tooManyDigits) :
    ∃ more rest, cs = more ++ rest ∧ Overlong (c :: more) ∧ Delimited rest := by
  rcases fault_of_piece h with hfault | ⟨hc, hnumber⟩
  · cases hfault
  · obtain ⟨b, v, more, rest, rfl, hrest, hspells⟩ :=
      spells_of_number hc fun cause offset hfault => by
        rw [hnumber] at hfault
        cases hfault
    obtain ⟨_, _, hcs, ⟨hover, -⟩ | ⟨-, hpiece⟩⟩ := hspells.piece_eq hrest
    · exact ⟨more, rest, rfl, ⟨b, v, hspells, hover⟩, hrest⟩
    · obtain ⟨rfl, rfl⟩ := List.cons.inj hcs
      rw [h] at hpiece
      cases hpiece

/-! ## Strings and characters -/

def escapes : List (Char × Char) :=
  [('n', '\n'), ('t', '\t'), ('r', '\r'), ('0', '\x00'), ('\\', '\\'), ('\'', '\''), ('"', '"')]

theorem unescape?_eq_some {e c : Char} : unescape? e = some c ↔ (e, c) ∈ escapes := by
  constructor
  · intro h
    unfold unescape? at h
    split at h
    case h_8 => cases h
    all_goals
      cases h
      decide
  · intro h
    simp only [escapes, List.mem_cons, Prod.mk.injEq, List.not_mem_nil, or_false] at h
    rcases h with ⟨rfl, rfl⟩ | ⟨rfl, rfl⟩ | ⟨rfl, rfl⟩ | ⟨rfl, rfl⟩ | ⟨rfl, rfl⟩ | ⟨rfl, rfl⟩ |
      ⟨rfl, rfl⟩ <;> rfl

/--
The ways to spell a character between two of the character `quote`: as itself,
unless it is the quote, a backslash or a line feed, and by an escape for it.
-/
inductive SpelledIn (quote c : Char) : List Char → Prop
  | plain : c ≠ quote → c ≠ '\\' → c ≠ '\n' → SpelledIn quote c [c]
  | escape {e} : (e, c) ∈ escapes → SpelledIn quote c ['\\', e]

theorem stringFrom_part {c : Char} {part : List Char} (h : SpelledIn '"' c part) (offset : Nat)
    (cs : List Char) : stringFrom offset (part ++ cs) =
      (stringFrom (offset + part.length) cs).map fun (s, close) => (c :: s, close) := by
  cases h with
  | plain hquote hbackslash hnewline =>
      rw [List.singleton_append, stringFrom]
      · rfl
      · exact hquote
      · exact hnewline
      · exact fun h => absurd h hbackslash
      · exact fun e rest h => absurd h hbackslash
  | escape he =>
      rw [List.cons_append, List.singleton_append, stringFrom, unescape?_eq_some.mpr he]
      rfl

theorem stringFrom_parts {s : List Char} {parts : List (List Char)}
    (h : List.Forall₂ (SpelledIn '"') s parts) (offset : Nat) (rest : List Char) :
    stringFrom offset (parts.flatten ++ '"' :: rest) =
      .ok (s, offset + parts.flatten.length) := by
  induction h generalizing offset with
  | nil => rfl
  | cons hpart _ ih =>
      rw [List.flatten_cons, List.append_assoc, stringFrom_part hpart, ih, List.length_append,
        Nat.add_assoc]
      rfl

theorem character_of_part {c : Char} {part : List Char} (h : SpelledIn '\'' c part)
    (rest : List Char) :
    character (part ++ '\'' :: rest) = .ok ⟨some (.number c.toNat), part.length + 1⟩ := by
  cases h with
  | plain hquote hbackslash hnewline =>
      rw [List.singleton_append, character]
      · rfl
      · exact hquote
      · exact hnewline
      · exact hbackslash
  | escape he =>
      simp only [List.cons_append, List.nil_append, character, unescape?_eq_some.mpr he]
      rfl

/-- The characters `cs` spell a literal in front of the text `rest`. -/
inductive Literal : Lexeme → List Char → List Char → Prop
  | number {b : Base} {v cs rest} : b.Spells v cs → Delimited rest →
      Literal (.number v) cs rest
  | string {s parts rest} : List.Forall₂ (SpelledIn '"') s parts →
      Literal (.string (String.ofList s)) ('"' :: (parts.flatten ++ ['"'])) rest
  | character {c part rest} : SpelledIn '\'' c part →
      Literal (.number c.toNat) ('\'' :: (part ++ ['\''])) rest

theorem Literal.piece_eq {l : Lexeme} (h : Literal l cs rest) (hshort : ¬ Overlong cs) :
    ∃ c more, cs = c :: more ∧ piece c (more ++ rest) = .ok ⟨some l, more.length⟩ := by
  cases h with
  | number hspells hrest =>
      obtain ⟨c, more, hcs, ⟨hover, -⟩ | ⟨-, hpiece⟩⟩ := hspells.piece_eq hrest
      · exact absurd ⟨_, _, hspells, hover⟩ hshort
      · exact ⟨c, more, hcs, hpiece⟩
  | string hparts =>
      refine ⟨_, _, rfl, ?_⟩
      rw [piece_of_quote (.inl rfl), if_pos rfl, List.append_assoc, List.singleton_append,
        stringFrom_parts hparts, List.length_append, List.length_singleton, Nat.add_comm]
      rfl
  | character hpart =>
      refine ⟨_, _, rfl, ?_⟩
      rw [piece_of_quote (.inr rfl), if_neg (by decide), List.append_assoc, List.singleton_append,
        character_of_part hpart, List.length_append]
      rfl

theorem Cuts.scanFrom_eq {p q : Position} {left : List Char} {ts : List Token}
    (h : Cuts q left p cs ts) :
    scanFrom p cs = (scanFrom q left).map fun (us, last) => (ts ++ us, last) := by
  induction h with
  | done => cases scanFrom q left <;> rfl
  | lexeme more hpiece _ ih =>
      rw [scanFrom, hpiece]
      simp only [List.take_left, List.drop_left]
      rw [ih]
      cases scanFrom q left <;> rfl
  | blank more hpiece _ ih =>
      rw [scanFrom, hpiece]
      simp only [List.take_left, List.drop_left]
      exact ih

theorem Cuts.scan_eq {text : String} {q : Position} {left : List Char} {ts : List Token}
    (h : Cuts q left .start text.toList ts) :
    scan text = (scanFrom q left).map fun (us, last) => (ts ++ us, last) := h.scanFrom_eq

theorem scan_of_overlong {text : String} {q : Position} {ts : List Token}
    (h : Cuts q (cs ++ rest) .start text.toList ts) (hover : Overlong cs)
    (hrest : Delimited rest) : scan text = .error .tooManyDigits := by
  obtain ⟨b, v, hspells, hover⟩ := hover
  obtain ⟨c, more, rfl, ⟨-, hpiece⟩ | ⟨hshort, -⟩⟩ := hspells.piece_eq hrest
  · rw [h.scan_eq, List.cons_append, scanFrom, hpiece]
    rfl
  · exact absurd hover hshort

end Token

end BrownLang
