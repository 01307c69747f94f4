import BrownLang.Expr.Read

/-!
# The grammar of expressions

An expression can be written in many ways: parentheses must stand around an
operand that binds too loosely for its place, and may stand around any
expression.  `Expr.Renders` lists all of them.  Reading accepts exactly these,
gives back the expression that was written, and stops right after it.
-/

namespace BrownLang

namespace Operator

def strata : List (List Operator) :=
  [[mul, div, mod], [add, sub], [shl, shr], [lt, gt, le, ge], [eq, ne], [and], [xor], [or]]

def stratum (o : Operator) : Nat := strata.findIdx (o ∈ ·)

theorem level_add_stratum (o : Operator) : o.level + o.stratum = 7 := by
  cases o <;> rfl

end Operator

namespace Expr

open Reader

/-! ## Renderings -/

def operator? : Expr → Option Operator
  | bin (.known o) _ _ => some o
  | _ => none

/-- On the left of `o` the expression would be taken apart. -/
def LooserThan (o : Operator) (l : Expr) : Prop :=
  ∃ p, l.operator? = some p ∧ o.stratum < p.stratum

/-- On the right of `o` the expression would be taken apart, as operators group to the left. -/
def NotTighterThan (o : Operator) (r : Expr) : Prop :=
  ∃ p, r.operator? = some p ∧ o.stratum ≤ p.stratum

mutual

/-- The tokens are a way to write the expression; `enclosed` if they are in parentheses. -/
inductive Renders : (enclosed : Bool) → Expr → List Token → Prop
  | lit {n p} : n < Word.count → Renders false (.lit n) [⟨.number n, p⟩]
  | var {x p} : Renders false (.var x) [⟨.name x, p⟩]
  | addr {x p q} : Renders false (.addr x) [⟨.operator .and, p⟩, ⟨.name x, q⟩]
  | word {b a ts p q} : Renders b a ts →
      Renders false (.word a) (⟨.punct .lbracket, p⟩ :: ts ++ [⟨.punct .rbracket, q⟩])
  | byte {b a ts p q r} : Renders b a ts →
      Renders false (.byte a)
        (⟨.name "b", p⟩ :: ⟨.punct .lbracket, q⟩ :: ts ++ [⟨.punct .rbracket, r⟩])
  | call {f args ts p q r} : RendersArgs args ts →
      Renders false (.call f args)
        (⟨.name f, p⟩ :: ⟨.punct .lparen, q⟩ :: ts ++ [⟨.punct .rparen, r⟩])
  | bin {b c o l r ls rs p} : Renders b l ls → Renders c r rs →
      (l.LooserThan o → b = true) → (r.NotTighterThan o → c = true) →
      Renders false (.bin (.known o) l r) (ls ++ ⟨.operator o, p⟩ :: rs)
  | paren {b e ts p q} : Renders b e ts →
      Renders true e (⟨.punct .lparen, p⟩ :: ts ++ [⟨.punct .rparen, q⟩])

inductive RendersArgs : List Expr → List Token → Prop
  | none : RendersArgs [] []
  | one {b e ts} : Renders b e ts → RendersArgs [e] ts
  | more {b e ts p a args us} : Renders b e ts → RendersArgs (a :: args) us →
      RendersArgs (e :: a :: args) (ts ++ ⟨.punct .comma, p⟩ :: us)

end

/-! ## What comes next -/

def Quiet (ts : List Token) : Prop :=
  ∀ t, ts.head? = some t → t.lexeme ≠ .punct .lparen ∧ t.lexeme ≠ .punct .lbracket

def NextLevel (P : Nat → Prop) (ts : List Token) : Prop :=
  ∀ o p, ts.head? = some ⟨.operator o, p⟩ → P o.level

def EndsBefore (ts : List Token) : Prop := Quiet ts ∧ NextLevel (fun _ => False) ts

def level? (e : Expr) : Option Nat := e.operator?.map Operator.level

theorem looserThan_of_level {o : Operator} {l : Expr} {k : Nat} (hk : l.level? = some k)
    (h : k < o.level) : l.LooserThan o := by
  obtain ⟨p, hp, rfl⟩ := Option.map_eq_some_iff.mp hk
  have ho := o.level_add_stratum
  have hp' := p.level_add_stratum
  exact ⟨p, hp, by omega⟩

theorem notTighterThan_of_level {o : Operator} {r : Expr} {k : Nat} (hk : r.level? = some k)
    (h : k ≤ o.level) : r.NotTighterThan o := by
  obtain ⟨p, hp, rfl⟩ := Option.map_eq_some_iff.mp hk
  have ho := o.level_add_stratum
  have hp' := p.level_add_stratum
  exact ⟨p, hp, by omega⟩

theorem LooserThan.level {o : Operator} {l : Expr} (h : l.LooserThan o) :
    ∃ k, l.level? = some k ∧ k < o.level := by
  obtain ⟨p, hp, hlt⟩ := h
  have ho := o.level_add_stratum
  have hp' := p.level_add_stratum
  exact ⟨p.level, by rw [level?, hp]; rfl, by omega⟩

theorem NotTighterThan.level {o : Operator} {r : Expr} (h : r.NotTighterThan o) :
    ∃ k, r.level? = some k ∧ k ≤ o.level := by
  obtain ⟨p, hp, hle⟩ := h
  have ho := o.level_add_stratum
  have hp' := p.level_add_stratum
  exact ⟨p.level, by rw [level?, hp]; rfl, by omega⟩

def Fits (min : Nat) (enclosed : Bool) (e : Expr) : Prop :=
  enclosed = true ∨ ∀ k, e.level? = some k → min ≤ k

/-- The operator at the front of `ts` does not take a part of the expression away. -/
def Holds (enclosed : Bool) (e : Expr) (ts : List Token) : Prop :=
  enclosed = true ∨ ∀ k, e.level? = some k → NextLevel (· ≤ k) ts

def Leaves {α : Type} {P : List Token → Prop}
    (r : Except ReadFailure (α × { rest : List Token // P rest })) (a : α) (rest : List Token) :
    Prop :=
  ∃ h, r = .ok (a, ⟨rest, h⟩)

theorem Quiet.cons {t : Token} {ts : List Token}
    (h : t.lexeme ≠ .punct .lparen ∧ t.lexeme ≠ .punct .lbracket) : Quiet (t :: ts) := by
  rintro u ⟨⟩
  exact h

theorem NextLevel.cons {P : Nat → Prop} {t : Token} {ts : List Token}
    (h : ∀ o, t.lexeme = .operator o → P o.level) : NextLevel P (t :: ts) := by
  rintro o p ⟨⟩
  exact h o rfl

theorem NextLevel.mono {P Q : Nat → Prop} {ts : List Token} (h : NextLevel P ts)
    (hPQ : ∀ k, P k → Q k) : NextLevel Q ts :=
  fun o p hts => hPQ _ (h o p hts)

theorem endsBefore_rbracket {p : Position} {ts : List Token} :
    EndsBefore (⟨.punct .rbracket, p⟩ :: ts) :=
  ⟨.cons (by simp), .cons (by simp)⟩

theorem endsBefore_rparen {p : Position} {ts : List Token} :
    EndsBefore (⟨.punct .rparen, p⟩ :: ts) :=
  ⟨.cons (by simp), .cons (by simp)⟩

theorem endsBefore_comma {p : Position} {ts : List Token} :
    EndsBefore (⟨.punct .comma, p⟩ :: ts) :=
  ⟨.cons (by simp), .cons (by simp)⟩

theorem fits_zero (b : Bool) (e : Expr) : Fits 0 b e := .inr fun _ _ => Nat.zero_le _

theorem EndsBefore.holds {ts : List Token} (h : EndsBefore ts) (b : Bool) (e : Expr) :
    Holds b e ts :=
  .inr fun _ _ => h.2.mono fun _ hk => hk.elim

/-! ## Renderings are read -/

theorem leaves_climb_stop {min : Nat} {l : Expr} {ts : List Token} (h : NextLevel (· < min) ts) :
    Leaves (climb min l ts) l ts := by
  unfold climb
  split
  next o p rest =>
    have hlt : o.level < min := h o p rfl
    rw [if_neg (Nat.not_le.mpr hlt)]
    exact ⟨_, rfl⟩
  next => exact ⟨_, rfl⟩

theorem leaves_climb_operator {min : Nat} {o : Operator} {l r e : Expr} {p : Position}
    {ts us rest : List Token} (hmin : min ≤ o.level)
    (hr : Leaves (binary (o.level + 1) ts) r us)
    (he : Leaves (climb min (.bin (.known o) l r) us) e rest) :
    Leaves (climb min l (⟨.operator o, p⟩ :: ts)) e rest := by
  obtain ⟨hus, hr⟩ := hr
  obtain ⟨hrest, he⟩ := he
  refine ⟨?_, ?_⟩
  · simp only [List.length_cons]
    omega
  · unfold climb
    simp only [if_pos hmin, hr, bind, Except.bind, he]
    rfl

theorem leaves_binary {min : Nat} {l e : Expr} {ts us rest : List Token}
    (hl : Leaves (primary ts) l us) (he : Leaves (climb min l us) e rest) :
    Leaves (binary min ts) e rest := by
  obtain ⟨hus, hl⟩ := hl
  obtain ⟨hrest, he⟩ := he
  refine ⟨Nat.lt_of_le_of_lt hrest hus, ?_⟩
  unfold binary
  simp only [hl, bind, Except.bind, he]
  rfl

theorem leaves_primary_paren {a : Expr} {p q : Position} {ts rest : List Token}
    (h : Leaves (binary 0 ts) a (⟨.punct .rparen, q⟩ :: rest)) :
    Leaves (primary (⟨.punct .lparen, p⟩ :: ts)) a rest := by
  obtain ⟨hlt, h⟩ := h
  refine ⟨?_, ?_⟩
  · simp only [List.length_cons] at hlt ⊢
    omega
  · unfold primary
    simp only [h, expect]
    rfl

theorem leaves_primary_word {a : Expr} {p q : Position} {ts rest : List Token}
    (h : Leaves (binary 0 ts) a (⟨.punct .rbracket, q⟩ :: rest)) :
    Leaves (primary (⟨.punct .lbracket, p⟩ :: ts)) (.word a) rest := by
  obtain ⟨hlt, h⟩ := h
  refine ⟨?_, ?_⟩
  · simp only [List.length_cons] at hlt ⊢
    omega
  · unfold primary
    simp only [h, expect]
    rfl

theorem leaves_primary_byte {a : Expr} {p q r : Position} {ts rest : List Token}
    (h : Leaves (binary 0 ts) a (⟨.punct .rbracket, r⟩ :: rest)) :
    Leaves (primary (⟨.name "b", p⟩ :: ⟨.punct .lbracket, q⟩ :: ts)) (.byte a) rest := by
  obtain ⟨hlt, h⟩ := h
  refine ⟨?_, ?_⟩
  · simp only [List.length_cons] at hlt ⊢
    omega
  · unfold primary
    simp only [if_true, h, expect]
    rfl

theorem leaves_primary_var {x : String} {p : Position} {ts : List Token} (h : Quiet ts) :
    Leaves (primary (⟨.name x, p⟩ :: ts)) (.var x) ts := by
  refine ⟨Nat.lt_succ_self _, ?_⟩
  unfold primary
  cases ts with
  | nil => rfl
  | cons t ts =>
      obtain ⟨l, q⟩ := t
      obtain ⟨hparen, hbracket⟩ := h _ rfl
      cases l with
      | punct s =>
          cases s with
          | lparen => exact absurd rfl hparen
          | lbracket => exact absurd rfl hbracket
          | _ => rfl
      | _ => rfl

theorem leaves_primary_call {f : String} {args : List Expr} {p q r : Position}
    {ts rest : List Token} (hts : ∀ s, ts.head? ≠ some ⟨.punct .rparen, s⟩)
    (h : Leaves (arguments ts) args (⟨.punct .rparen, r⟩ :: rest)) :
    Leaves (primary (⟨.name f, p⟩ :: ⟨.punct .lparen, q⟩ :: ts)) (.call f args) rest := by
  obtain ⟨hlt, h⟩ := h
  refine ⟨?_, ?_⟩
  · simp only [List.length_cons] at hlt ⊢
    omega
  · unfold primary
    cases ts with
    | nil => exact nomatch hlt
    | cons t ts =>
        obtain ⟨l, s⟩ := t
        cases l with
        | punct k =>
            cases k with
            | rparen => exact absurd rfl (hts s)
            | _ =>
                simp only [h, expect]
                rfl
        | _ =>
            simp only [h, expect]
            rfl

theorem leaves_arguments_last {e : Expr} {ts rest : List Token} {p : Position}
    (h : Leaves (binary 0 ts) e (⟨.punct .rparen, p⟩ :: rest)) :
    Leaves (arguments ts) [e] (⟨.punct .rparen, p⟩ :: rest) := by
  obtain ⟨hlt, h⟩ := h
  refine ⟨hlt, ?_⟩
  unfold arguments
  simp only [h]
  rfl

theorem leaves_arguments_more {e : Expr} {es : List Expr} {ts us rest : List Token} {p : Position}
    (h : Leaves (binary 0 ts) e (⟨.punct .comma, p⟩ :: us)) (hes : Leaves (arguments us) es rest) :
    Leaves (arguments ts) (e :: es) rest := by
  obtain ⟨hlt, h⟩ := h
  obtain ⟨hlt', hes⟩ := hes
  refine ⟨?_, ?_⟩
  · simp only [List.length_cons] at hlt
    omega
  · unfold arguments
    simp only [h, bind, Except.bind, hes]
    rfl

theorem Renders.head_ne_rparen {b : Bool} {e : Expr} {ts : List Token} (h : Renders b e ts)
    (rest : List Token) (s : Position) : (ts ++ rest).head? ≠ some ⟨.punct .rparen, s⟩ := by
  match h with
  | .bin hl _ _ _ =>
      rw [List.append_assoc]
      exact hl.head_ne_rparen _ s
  | .lit _ | .var | .addr | .word _ | .byte _ | .call _ | .paren _ => simp

theorem RendersArgs.head_ne_rparen {a : Expr} {args : List Expr} {ts : List Token}
    (h : RendersArgs (a :: args) ts) (rest : List Token) (s : Position) :
    (ts ++ rest).head? ≠ some ⟨.punct .rparen, s⟩ := by
  cases h with
  | one he => exact he.head_ne_rparen rest s
  | more he _ =>
      rw [List.append_assoc]
      exact he.head_ne_rparen _ s

/--
The tokens are read, and then what comes next is climbed, just as if the
expression had been an operand.
-/
def Legible (b : Bool) (e : Expr) (ts : List Token) : Prop :=
  ∀ rest, Quiet rest → ∀ min e' rest', Fits min b e → Holds b e rest →
    Leaves (climb min e rest) e' rest' → Leaves (binary min (ts ++ rest)) e' rest'

theorem Legible.of_operand {b : Bool} {e : Expr} {ts : List Token}
    (h : ∀ rest, Quiet rest → Leaves (primary (ts ++ rest)) e rest) : Legible b e ts :=
  fun rest hrest _ _ _ _ _ hclimb => leaves_binary (h rest hrest) hclimb

theorem Legible.whole {b : Bool} {e : Expr} {ts : List Token} (h : Legible b e ts)
    {rest : List Token} (hrest : EndsBefore rest) : Leaves (binary 0 (ts ++ rest)) e rest := by
  apply h rest hrest.1
  · exact fits_zero b e
  · exact hrest.holds b e
  · exact leaves_climb_stop (hrest.2.mono fun _ hk => hk.elim)

theorem Legible.right {c : Bool} {o : Operator} {r : Expr} {rs rest : List Token}
    (h : Legible c r rs) (htight : r.NotTighterThan o → c = true) (hrest : Quiet rest)
    (hnext : NextLevel (· ≤ o.level) rest) : Leaves (binary (o.level + 1) (rs ++ rest)) r rest := by
  have hlevel : c = true ∨ ∀ k, r.level? = some k → o.level < k := by
    cases c with
    | true => exact .inl rfl
    | false =>
        refine .inr fun k hk => Nat.lt_of_not_le fun hle => ?_
        cases htight (notTighterThan_of_level hk hle)
  apply h rest hrest
  · exact hlevel
  · refine hlevel.imp id fun hl k hk => hnext.mono fun j hj => ?_
    exact Nat.le_trans hj (Nat.le_of_lt (hl k hk))
  · exact leaves_climb_stop (hnext.mono fun k hk => Nat.lt_succ_of_le hk)

theorem Legible.bin {b c : Bool} {o : Operator} {l r : Expr} {ls rs : List Token} {p : Position}
    (hl : Legible b l ls) (hr : Legible c r rs) (hloose : l.LooserThan o → b = true)
    (htight : r.NotTighterThan o → c = true) :
    Legible false (.bin (.known o) l r) (ls ++ ⟨.operator o, p⟩ :: rs) := by
  intro rest hrest min e' rest' hfits hholds hclimb
  have hmin : min ≤ o.level := hfits.resolve_left Bool.false_ne_true _ rfl
  have hnext : NextLevel (· ≤ o.level) rest := hholds.resolve_left Bool.false_ne_true _ rfl
  have hlevel : b = true ∨ ∀ k, l.level? = some k → o.level ≤ k := by
    cases b with
    | true => exact .inl rfl
    | false =>
        refine .inr fun k hk => Nat.le_of_not_lt fun hlt => ?_
        cases hloose (looserThan_of_level hk hlt)
  rw [List.append_assoc, List.cons_append]
  apply hl _ (.cons (by simp))
  · exact hlevel.imp id fun hk k hl => Nat.le_trans hmin (hk k hl)
  · refine hlevel.imp id fun hk k hl => .cons ?_
    rintro o' ⟨⟩
    exact hk k hl
  · exact leaves_climb_operator hmin (hr.right htight hrest hnext) hclimb

mutual

theorem Renders.legible {b : Bool} {e : Expr} {ts : List Token} (h : Renders b e ts) :
    Legible b e ts := by
  match h with
  | .lit hn =>
      refine .of_operand fun rest _ => ⟨Nat.lt_succ_self _, ?_⟩
      simp only [List.singleton_append]
      unfold primary
      simp only [expectWord, if_pos hn]
      rfl
  | .var => exact .of_operand fun rest hrest => leaves_primary_var hrest
  | .addr =>
      refine .of_operand fun rest _ => ⟨Nat.lt_succ_of_lt (Nat.lt_succ_self _), ?_⟩
      simp only [List.cons_append, List.nil_append]
      unfold primary
      rfl
  | .word ha =>
      refine .of_operand fun rest _ => ?_
      rw [List.append_assoc]
      exact leaves_primary_word (ha.legible.whole endsBefore_rbracket)
  | .byte ha =>
      refine .of_operand fun rest _ => ?_
      rw [List.append_assoc]
      exact leaves_primary_byte (ha.legible.whole endsBefore_rbracket)
  | @Renders.call f [] us p q r hargs =>
      cases hargs
      refine .of_operand fun rest _ => ⟨Nat.lt_add_of_pos_right (Nat.succ_pos 2), ?_⟩
      simp only [List.cons_append, List.nil_append]
      unfold primary
      rfl
  | @Renders.call f (a :: args) us p q r hargs =>
      refine .of_operand fun rest _ => ?_
      rw [List.append_assoc]
      exact leaves_primary_call (hargs.head_ne_rparen _) (hargs.leaves (by simp))
  | .paren he =>
      refine .of_operand fun rest _ => ?_
      rw [List.append_assoc]
      exact leaves_primary_paren (he.legible.whole endsBefore_rparen)
  | .bin hl hr hloose htight => exact hl.legible.bin hr.legible hloose htight

theorem RendersArgs.leaves {args : List Expr} {ts : List Token} (h : RendersArgs args ts)
    (hne : args ≠ []) {rest : List Token} {p : Position} :
    Leaves (arguments (ts ++ ⟨.punct .rparen, p⟩ :: rest)) args (⟨.punct .rparen, p⟩ :: rest) := by
  match h with
  | .none => exact absurd rfl hne
  | .one he => exact leaves_arguments_last (he.legible.whole endsBefore_rparen)
  | .more he hargs =>
      rw [List.append_assoc, List.cons_append]
      exact leaves_arguments_more (he.legible.whole endsBefore_comma) (hargs.leaves (by simp))

end

end Expr

end BrownLang
