import BrownLang.Proofs.Syntax.Grammar

/-!
# What is read is written in the grammar

Whenever reading succeeds, the tokens that it took are a rendering of the
expression that it gives back.  Together with the converse this says which
token lists are expressions, and of what.
-/

namespace BrownLang

namespace Reader

theorem bind_eq_ok {ε α β : Type} {x : Except ε α} {f : α → Except ε β} {b : β} :
    (x >>= f) = .ok b ↔ ∃ a, x = .ok a ∧ f a = .ok b := by
  cases x with
  | error e => simp [bind, Except.bind]
  | ok a => simp [bind, Except.bind]

theorem bind_eq_error {ε α β : Type} {x : Except ε α} {f : α → Except ε β} {e : ε} :
    (x >>= f) = .error e ↔ x = .error e ∨ ∃ a, x = .ok a ∧ f a = .error e := by
  cases x with
  | error e' => simp [bind, Except.bind]
  | ok a => simp [bind, Except.bind]

theorem of_expect {k : Kind} {ts rest : List Token} {hlt : rest.length < ts.length}
    (h : expect k ts = .ok ⟨rest, hlt⟩) : ∃ t, ts = t :: rest ∧ t.lexeme.kind = k := by
  cases ts with
  | nil => cases h
  | cons t ts =>
      simp only [expect] at h
      split at h
      next hk =>
        cases h
        exact ⟨t, rfl, hk⟩
      next => cases h

theorem of_expect_punct {s : Punct} {ts rest : List Token} {hlt : rest.length < ts.length}
    (h : expect (.punct s) ts = .ok ⟨rest, hlt⟩) : ∃ p, ts = ⟨.punct s, p⟩ :: rest := by
  obtain ⟨⟨l, p⟩, rfl, hk⟩ := of_expect h
  refine ⟨p, ?_⟩
  cases l with
  | punct s' =>
      cases hk
      rfl
  | _ => cases hk

theorem of_expectName {ts rest : List Token} {x : String} {hlt : rest.length < ts.length}
    (h : expectName ts = .ok (x, ⟨rest, hlt⟩)) : ∃ p, ts = ⟨.name x, p⟩ :: rest := by
  unfold expectName at h
  split at h
  next x' p rest =>
    cases h
    exact ⟨p, rfl⟩
  next => cases h

end Reader

namespace Expr

open Reader

/-! ## What a reader that succeeds has found -/

section

variable {p q : Position} {ts us rest : List Token} {e l : Expr} {args : List Expr} {min : Nat}

inductive Begins (ts : List Token) : Prop
  | number {n} {p : Position} {us} : ts = ⟨.number n, p⟩ :: us → Begins ts
  | and {p : Position} {us} : ts = ⟨.operator .and, p⟩ :: us → Begins ts
  | bracket {p : Position} {us} : ts = ⟨.punct .lbracket, p⟩ :: us → Begins ts
  | paren {p : Position} {us} : ts = ⟨.punct .lparen, p⟩ :: us → Begins ts
  | name {x} {p : Position} {us} : ts = ⟨.name x, p⟩ :: us → Begins ts

theorem of_leaves_primary (h : Leaves (primary ts) e rest) : Begins ts := by
  obtain ⟨hlt, h⟩ := h
  unfold primary at h
  split at h
  next => exact .number rfl
  next => exact .and rfl
  next => exact .bracket rfl
  next => exact .name rfl
  next => exact .name rfl
  next => exact .name rfl
  next => exact .name rfl
  next => exact .paren rfl
  next => cases h

theorem of_leaves_number {n : Nat} (h : Leaves (primary (⟨.number n, p⟩ :: ts)) e rest) :
    n < Word.count ∧ e = .lit n ∧ rest = ts := by
  obtain ⟨hlt, h⟩ := h
  unfold primary at h
  simp only [expectWord] at h
  split at h
  next hn =>
    cases h
    exact ⟨hn, rfl, rfl⟩
  next => cases h

theorem of_leaves_and (h : Leaves (primary (⟨.operator .and, p⟩ :: ts)) e rest) :
    ∃ x q, e = .addr x ∧ ts = ⟨.name x, q⟩ :: rest := by
  obtain ⟨hlt, h⟩ := h
  unfold primary at h
  obtain ⟨⟨x, us, hus⟩, hx, h⟩ := bind_eq_ok.mp h
  obtain ⟨q, rfl⟩ := of_expectName hx
  cases h
  exact ⟨x, q, rfl, rfl⟩

theorem of_leaves_paren (h : Leaves (primary (⟨.punct .lparen, p⟩ :: ts)) e rest) :
    ∃ q, Leaves (binary 0 ts) e (⟨.punct .rparen, q⟩ :: rest) := by
  obtain ⟨hlt, h⟩ := h
  unfold primary at h
  obtain ⟨⟨a, us, hus⟩, ha, h⟩ := bind_eq_ok.mp h
  obtain ⟨⟨vs, hvs⟩, hr, h⟩ := bind_eq_ok.mp h
  obtain ⟨q, rfl⟩ := of_expect_punct hr
  cases h
  exact ⟨q, _, ha⟩

theorem of_leaves_bracket (h : Leaves (primary (⟨.punct .lbracket, p⟩ :: ts)) e rest) :
    ∃ a q, e = .word a ∧ Leaves (binary 0 ts) a (⟨.punct .rbracket, q⟩ :: rest) := by
  obtain ⟨hlt, h⟩ := h
  unfold primary at h
  obtain ⟨⟨a, us, hus⟩, ha, h⟩ := bind_eq_ok.mp h
  obtain ⟨⟨vs, hvs⟩, hr, h⟩ := bind_eq_ok.mp h
  obtain ⟨q, rfl⟩ := of_expect_punct hr
  cases h
  exact ⟨a, q, rfl, _, ha⟩

def Names (x : String) (ts : List Token) : Prop :=
  (∀ q us, ts ≠ ⟨.punct .lparen, q⟩ :: us) ∧
    (x = "b" → ∀ q us, ts ≠ ⟨.punct .lbracket, q⟩ :: us)

theorem of_leaves_name {x : String} (h : Leaves (primary (⟨.name x, p⟩ :: ts)) e rest) :
    (e = .var x ∧ rest = ts ∧ Names x ts) ∨
      (∃ a q r us, x = "b" ∧ e = .byte a ∧ ts = ⟨.punct .lbracket, q⟩ :: us ∧
        Leaves (binary 0 us) a (⟨.punct .rbracket, r⟩ :: rest)) ∨
      (∃ q r, e = .call x [] ∧ ts = ⟨.punct .lparen, q⟩ :: ⟨.punct .rparen, r⟩ :: rest) ∨
      ∃ args q r us, e = .call x args ∧ ts = ⟨.punct .lparen, q⟩ :: us ∧
        Leaves (arguments us) args (⟨.punct .rparen, r⟩ :: rest) := by
  generalize hts : (⟨.name x, p⟩ :: ts : List Token) = ts₀ at h
  obtain ⟨hlt, h⟩ := h
  unfold primary at h
  split at h
  next => cases hts
  next => cases hts
  next => cases hts
  next q us =>
    cases hts
    split at h
    next hb =>
      obtain ⟨⟨a, vs, hvs⟩, ha, h⟩ := bind_eq_ok.mp h
      obtain ⟨⟨ws, hws⟩, hr, h⟩ := bind_eq_ok.mp h
      obtain ⟨r, rfl⟩ := of_expect_punct hr
      cases h
      exact .inr (.inl ⟨a, q, r, us, hb, rfl, rfl, _, ha⟩)
    next hb =>
      cases h
      exact .inl ⟨rfl, rfl, by simp, fun hx => absurd hx hb⟩
  next q r us =>
    cases hts
    cases h
    exact .inr (.inr (.inl ⟨q, r, rfl, rfl⟩))
  next q us hne =>
    cases hts
    obtain ⟨⟨args, vs, hvs⟩, hargs, h⟩ := bind_eq_ok.mp h
    obtain ⟨⟨ws, hws⟩, hr, h⟩ := bind_eq_ok.mp h
    obtain ⟨r, rfl⟩ := of_expect_punct hr
    cases h
    exact .inr (.inr (.inr ⟨args, q, r, us, rfl, rfl, _, hargs⟩))
  next hbracket hparen hcall =>
    cases hts
    cases h
    exact .inl ⟨rfl, rfl, fun q us => hcall q us, fun _ q us => hbracket q us⟩
  next => cases hts
  next => cases h

theorem of_leaves_binary (h : Leaves (binary min ts) e rest) :
    ∃ l us, Leaves (primary ts) l us ∧ Leaves (climb min l us) e rest := by
  obtain ⟨hlt, h⟩ := h
  unfold binary at h
  obtain ⟨⟨l, us, hus⟩, hl, h⟩ := bind_eq_ok.mp h
  obtain ⟨⟨e', vs, hvs⟩, he, h⟩ := bind_eq_ok.mp h
  cases h
  exact ⟨l, us, ⟨_, hl⟩, ⟨_, he⟩⟩

theorem of_leaves_climb (h : Leaves (climb min l ts) e rest) :
    (e = l ∧ rest = ts ∧ NextLevel (· < min) ts) ∨
      ∃ o p us r vs, ts = ⟨.operator o, p⟩ :: us ∧ min ≤ o.level ∧
        Leaves (binary (o.level + 1) us) r vs ∧
        Leaves (climb min (.bin (.known o) l r) vs) e rest := by
  obtain ⟨hlt, h⟩ := h
  unfold climb at h
  split at h
  next o p us =>
    split at h
    next hmin =>
      obtain ⟨⟨r, vs, hvs⟩, hr, h⟩ := bind_eq_ok.mp h
      obtain ⟨⟨e', ws, hws⟩, he, h⟩ := bind_eq_ok.mp h
      cases h
      exact .inr ⟨o, p, us, r, vs, rfl, hmin, ⟨_, hr⟩, ⟨_, he⟩⟩
    next hmin =>
      cases h
      refine .inl ⟨rfl, rfl, .cons ?_⟩
      rintro o' ⟨⟩
      exact Nat.lt_of_not_le hmin
  next ts hne =>
    cases h
    refine .inl ⟨rfl, rfl, fun o p hts => ?_⟩
    obtain ⟨us, rfl⟩ := List.head?_eq_some_iff.mp hts
    exact (hne o p us rfl).elim

theorem of_leaves_arguments (h : Leaves (arguments ts) args rest) :
    (∃ e, args = [e] ∧ Leaves (binary 0 ts) e rest) ∨
      ∃ e es p us, args = e :: es ∧ Leaves (binary 0 ts) e (⟨.punct .comma, p⟩ :: us) ∧
        Leaves (arguments us) es rest := by
  obtain ⟨hlt, h⟩ := h
  unfold arguments at h
  obtain ⟨⟨e, us, hus⟩, he, h⟩ := bind_eq_ok.mp h
  simp only at h
  split at h
  next p us hus =>
    obtain ⟨⟨es, vs, hvs⟩, hes, h⟩ := bind_eq_ok.mp h
    cases h
    exact .inr ⟨e, es, p, us, rfl, ⟨_, he⟩, ⟨_, hes⟩⟩
  next =>
    cases h
    exact .inl ⟨e, rfl, _, he⟩

end

/-! ## Derivations -/

/-- The tokens before `rest` in `ts` render `e`, and it needs no parentheses at the level `min`. -/
def Derives (min : Nat) (e : Expr) (ts rest : List Token) : Prop :=
  ∃ b pre, ts = pre ++ rest ∧ Renders b e pre ∧ Fits min b e ∧ NextLevel (· < min) rest

theorem Fits.tighter {b : Bool} {o : Operator} {r : Expr} (h : Fits (o.level + 1) b r)
    (htight : r.NotTighterThan o) : b = true := by
  obtain ⟨k, hk, hle⟩ := htight.level
  exact h.resolve_right fun hfits => Nat.not_lt_of_le hle (hfits k hk)

theorem Holds.looser {b : Bool} {o : Operator} {l : Expr} {p : Position} {ts : List Token}
    (h : Holds b l (⟨.operator o, p⟩ :: ts)) (hloose : l.LooserThan o) : b = true := by
  obtain ⟨k, hk, hlt⟩ := hloose.level
  exact h.resolve_right fun hholds => Nat.not_le_of_lt hlt (hholds k hk o p rfl)

theorem Leaves.length_lt {α : Type} {ts rest : List Token} {a : α}
    {r : Except ReadFailure (α × TokensAfter ts)} (h : Leaves r a rest) :
    rest.length < ts.length :=
  h.elim fun hlt _ => hlt

theorem length_lt_of_cons {t : Token} {ts us : List Token} (h : ts = t :: us) :
    us.length < ts.length := by
  rw [h]
  exact Nat.lt_succ_self _

mutual

theorem derives_primary {ts rest : List Token} {e : Expr} (h : Leaves (primary ts) e rest) :
    ∃ b pre, ts = pre ++ rest ∧ Renders b e pre ∧ (b = true ∨ e.level? = none) := by
  match of_leaves_primary h with
  | .number hts =>
      subst hts
      obtain ⟨hn, rfl, rfl⟩ := of_leaves_number h
      exact ⟨false, [_], rfl, .lit hn, .inr rfl⟩
  | .and hts =>
      subst hts
      obtain ⟨x, q, rfl, rfl⟩ := of_leaves_and h
      exact ⟨false, [_, _], rfl, .addr, .inr rfl⟩
  | .bracket (p := p) hts =>
      have hlt := length_lt_of_cons hts
      subst hts
      obtain ⟨a, q, rfl, ha⟩ := of_leaves_bracket h
      obtain ⟨b, pre, rfl, hpre, -⟩ := derives_binary ha
      exact ⟨false, _, by simp, .word (p := p) (q := q) hpre, .inr rfl⟩
  | .paren (p := p) hts =>
      have hlt := length_lt_of_cons hts
      subst hts
      obtain ⟨q, he⟩ := of_leaves_paren h
      obtain ⟨b, pre, rfl, hpre, -⟩ := derives_binary he
      exact ⟨true, _, by simp, .paren (p := p) (q := q) hpre, .inl rfl⟩
  | .name (p := p) hts =>
      have hlt := length_lt_of_cons hts
      subst hts
      rcases of_leaves_name h with ⟨rfl, rfl, -⟩ | ⟨a, q, r, us, rfl, rfl, hus, ha⟩ |
        ⟨q, r, rfl, rfl⟩ | ⟨args, q, r, us, rfl, hus, hargs⟩
      · exact ⟨false, [_], rfl, .var, .inr rfl⟩
      · have hlt' := length_lt_of_cons hus
        subst hus
        obtain ⟨b, pre, rfl, hpre, -⟩ := derives_binary ha
        exact ⟨false, _, by simp, .byte (p := p) (q := q) (r := r) hpre, .inr rfl⟩
      · exact ⟨false, _, by simp, .call (p := p) (q := q) (r := r) .none, .inr rfl⟩
      · have hlt' := length_lt_of_cons hus
        subst hus
        obtain ⟨pre, rfl, hpre, -⟩ := derives_arguments hargs
        exact ⟨false, _, by simp, .call (p := p) (q := q) (r := r) hpre, .inr rfl⟩
termination_by (ts.length, 0)
decreasing_by
  all_goals
    apply Prod.Lex.left
    omega

theorem derives_binary {min : Nat} {ts rest : List Token} {e : Expr}
    (h : Leaves (binary min ts) e rest) : Derives min e ts rest := by
  obtain ⟨l, us, hl, hclimb⟩ := of_leaves_binary h
  have hlt := hl.length_lt
  obtain ⟨b, pre, hts, hpre, hop⟩ := derives_primary hl
  obtain ⟨c, post, rfl, hpost, hfits, hnext⟩ := derives_climb hclimb hpre
    (hop.imp id fun hnone k hk => by rw [hnone] at hk; cases hk)
    (hop.imp id fun hnone k hk => by rw [hnone] at hk; cases hk)
  exact ⟨c, pre ++ post, by simp [hts], hpost, hfits, hnext⟩
termination_by (ts.length, 1)
decreasing_by
  · exact Prod.Lex.right _ (Nat.lt_succ_self _)
  · exact Prod.Lex.left _ _ hlt

/-- What is climbed is a rendering if what it began with is one that nothing is taken from. -/
theorem derives_climb {min : Nat} {l e : Expr} {b : Bool} {ls ts rest : List Token}
    (h : Leaves (climb min l ts) e rest) (hl : Renders b l ls) (hfits : Fits min b l)
    (hholds : Holds b l ts) :
    ∃ c pre, ts = pre ++ rest ∧ Renders c e (ls ++ pre) ∧ Fits min c e ∧
      NextLevel (· < min) rest := by
  rcases of_leaves_climb h with ⟨rfl, rfl, hnext⟩ | ⟨o, p, us, r, vs, hts, hmin, hr, he⟩
  · exact ⟨b, [], rfl, by simpa using hl, hfits, hnext⟩
  · have hlt := length_lt_of_cons hts
    have hlt' := hr.length_lt
    rw [hts] at hholds
    obtain ⟨c, pre, hus, hpre, hright, hnext⟩ := derives_binary hr
    have hbin : Renders false (.bin (.known o) l r) (ls ++ ⟨.operator o, p⟩ :: pre) :=
      .bin hl hpre hholds.looser hright.tighter
    have hlevel : Fits min false (.bin (.known o) l r) := by
      refine .inr ?_
      rintro k ⟨⟩
      exact hmin
    have hover : Holds false (.bin (.known o) l r) vs := by
      refine .inr ?_
      rintro k ⟨⟩
      exact hnext.mono fun j hj => Nat.le_of_lt_succ hj
    obtain ⟨d, post, rfl, hpost, hrest⟩ := derives_climb he hbin hlevel hover
    refine ⟨d, ⟨.operator o, p⟩ :: pre ++ post, by simp [hts, hus], ?_, hrest⟩
    simpa using hpost
termination_by (ts.length, 0)
decreasing_by
  all_goals
    apply Prod.Lex.left
    omega

theorem derives_arguments {ts rest : List Token} {args : List Expr}
    (h : Leaves (arguments ts) args rest) :
    ∃ pre, ts = pre ++ rest ∧ RendersArgs args pre ∧ args ≠ [] := by
  rcases of_leaves_arguments h with ⟨e, rfl, he⟩ | ⟨e, es, p, us, rfl, he, hes⟩
  · obtain ⟨b, pre, rfl, hpre, -⟩ := derives_binary he
    exact ⟨pre, rfl, .one hpre, by simp⟩
  · have hlt : us.length < ts.length := Nat.lt_of_succ_lt he.length_lt
    obtain ⟨b, pre, hts, hpre, -⟩ := derives_binary he
    obtain ⟨post, rfl, hpost, hne⟩ := derives_arguments hes
    obtain ⟨a, args, rfl⟩ := List.exists_cons_of_ne_nil hne
    exact ⟨_, by simp [hts], .more (p := p) hpre hpost, by simp⟩
termination_by (ts.length, 2)
decreasing_by
  · exact Prod.Lex.right _ (Nat.lt_succ_self _)
  · exact Prod.Lex.right _ (Nat.lt_succ_self _)
  · exact Prod.Lex.left _ _ hlt

end

theorem derives_read {ts rest : List Token} {e : Expr} {hlt : rest.length < ts.length}
    (h : read ts = .ok (e, ⟨rest, hlt⟩)) : Derives 0 e ts rest :=
  derives_binary ⟨hlt, h⟩

/--
Reading accepts the renderings of an expression where what comes next does not
go on with it, and stops there; and it accepts nothing else.
-/
theorem read_accepts_renderings :
    (∀ (b : Bool) (e : Expr) (ts rest : List Token), Renders b e ts → EndsBefore rest →
      ∃ h, read (ts ++ rest) = .ok (e, ⟨rest, h⟩)) ∧
    (∀ (ts : List Token) (e : Expr) (rest : List Token) (h : rest.length < ts.length),
      read ts = .ok (e, ⟨rest, h⟩) → ∃ b pre, ts = pre ++ rest ∧ Renders b e pre) := by
  constructor
  · intro b e ts rest h hrest
    exact h.legible.whole hrest
  · intro ts e rest hlt h
    obtain ⟨b, pre, hts, hpre, -⟩ := derives_read h
    exact ⟨b, pre, hts, hpre⟩

def mixture : Expr :=
  .bin (.known .and)
    (.bin (.known .sub) (.var "a") (.bin (.known .sub) (.var "b") (.byte (.addr "c"))))
    (.bin (.known .shl) (.addr "f") (.call "b" [.lit 2, .word (.var "x")]))

def mixture.tokens : List Token :=
  let spelled : List Lexeme :=
    [.name "a", .operator .sub, .punct .lparen, .name "b", .operator .sub, .name "b",
      .punct .lbracket, .punct .lparen, .operator .and, .name "c", .punct .rparen,
      .punct .rbracket, .punct .rparen, .operator .and, .operator .and, .name "f", .operator .shl,
      .name "b", .punct .lparen, .number 2, .punct .comma, .punct .lbracket, .name "x",
      .punct .rbracket, .punct .rparen]
  spelled.map fun l => ⟨l, .start⟩

theorem renders_mixture : Renders false mixture mixture.tokens := by
  have hread : Renders false (.byte (.addr "c")) _ :=
    .byte (p := .start) (q := .start) (r := .start)
      (.paren (p := .start) (q := .start) (.addr (p := .start) (q := .start)))
  have hinner : Renders true (.bin (.known .sub) (.var "b") (.byte (.addr "c"))) _ :=
    .paren (p := .start) (q := .start)
      (.bin (p := .start) (.var (p := .start)) hread
        (by simp [LooserThan, operator?]) (by simp [NotTighterThan, operator?]))
  have hleft : Renders false (.bin (.known .sub) (.var "a") _) _ :=
    .bin (p := .start) (.var (p := .start)) hinner
      (by simp [LooserThan, operator?]) (fun _ => rfl)
  have hcall : Renders false (.call "b" [.lit 2, .word (.var "x")]) _ :=
    .call (p := .start) (q := .start) (r := .start)
      (.more (p := .start) (.lit (p := .start) (by decide))
        (.one (.word (p := .start) (q := .start) (.var (p := .start)))))
  have hright : Renders false (.bin (.known .shl) (.addr "f") _) _ :=
    .bin (p := .start) (.addr (p := .start) (q := .start)) hcall
      (by simp [LooserThan, operator?]) (by simp [NotTighterThan, operator?])
  exact .bin (p := .start) hleft hright
    (by rintro ⟨p, ⟨⟩, h⟩; exact absurd h (by decide))
    (by rintro ⟨p, ⟨⟩, h⟩; exact absurd h (by decide))

theorem read_mixture :
    let ts := mixture.tokens ++ [⟨.punct .arrow, .start⟩]
    (∃ h, read ts = .ok (mixture, ⟨[⟨.punct .arrow, .start⟩], h⟩)) ∧
      ∃ b pre, ts = pre ++ [⟨.punct .arrow, .start⟩] ∧ Renders b mixture pre := by
  have hend : EndsBefore [⟨.punct .arrow, .start⟩] := ⟨.cons (by simp), .cons (by simp)⟩
  obtain ⟨h, hread⟩ := read_accepts_renderings.1 _ _ _ _ renders_mixture hend
  exact ⟨⟨h, hread⟩, read_accepts_renderings.2 _ _ _ h hread⟩

end Expr

end BrownLang
