import BrownLang.Proofs.Syntax.Locations

/-!
# Where reading fails

A reader that is given some tokens fails at one of them, or at their end.  The
property is closed under doing one thing after another, as long as what is left
is an end of the tokens; so it is enough to know it of the failures that are
raised.
-/

namespace BrownLang

/-- The failure is at one of the tokens, or at their end. -/
def ReadFailure.At (ts : List Token) (e : ReadFailure) : Prop :=
  ∀ p, e.position = some p → ∃ t ∈ ts, t.position = p

namespace Reader

def FailsAt {α : Type} (ts : List Token) (x : Except ReadFailure α) : Prop :=
  ∀ e, x = .error e → e.At ts

namespace FailsAt

variable {α β : Type} {ts us : List Token} {x : Except ReadFailure α}

theorem ok (a : α) : FailsAt ts (.ok a : Except ReadFailure α) := nofun

theorem token {t : Token} (ht : t ∈ ts) (fault : ParseFault) :
    FailsAt ts (.error ⟨fault, some t.position⟩ : Except ReadFailure α) := by
  rintro e ⟨⟩ p ⟨⟩
  exact ⟨t, ht, rfl⟩

theorem front (ts : List Token) (fault : ParseFault) :
    FailsAt ts (failAt ts fault : Except ReadFailure α) := by
  cases ts with
  | nil => rintro e ⟨⟩ p ⟨⟩
  | cons t ts => exact token List.mem_cons_self fault

theorem mono (h : FailsAt us x) (hsuffix : us <:+ ts) : FailsAt ts x := by
  intro e he p hp
  obtain ⟨t, ht, hposition⟩ := h e he p hp
  exact ⟨t, hsuffix.subset ht, hposition⟩

theorem bind {f : α → Except ReadFailure β} (hx : FailsAt ts x)
    (hf : ∀ a, x = .ok a → FailsAt ts (f a)) : FailsAt ts (x >>= f) := by
  intro e he
  rcases bind_eq_error.mp he with he | ⟨a, ha, he⟩
  · exact hx e he
  · exact hf a ha e he

theorem tail {t : Token} (h : FailsAt ts x) : FailsAt (t :: ts) x := h.mono (List.suffix_cons t ts)

end FailsAt

theorem failsAt_expect (k : Kind) (ts : List Token) : FailsAt ts (expect k ts) := by
  unfold expect
  split
  · exact .front _ _
  · split
    · exact .ok _
    · exact .front _ _

theorem failsAt_expectName (ts : List Token) : FailsAt ts (expectName ts) := by
  unfold expectName
  split
  · exact .ok _
  · exact .front _ _

theorem failsAt_expectWord (ts : List Token) : FailsAt ts (expectWord ts) := by
  unfold expectWord
  split
  · split
    · exact .ok _
    · exact .token List.mem_cons_self _
  · exact .front _ _

end Reader

open Reader

namespace Expr

theorem suffix_of_binary {min : Nat} {e : Expr} {ts rest : List Token}
    (h : Leaves (binary min ts) e rest) : rest <:+ ts := by
  obtain ⟨-, pre, rfl, -⟩ := derives_binary h
  exact List.suffix_append pre rest

theorem suffix_of_arguments {args : List Expr} {ts rest : List Token}
    (h : Leaves (arguments ts) args rest) : rest <:+ ts := by
  obtain ⟨pre, rfl, -⟩ := derives_arguments h
  exact List.suffix_append pre rest

theorem suffix_of_primary {e : Expr} {ts rest : List Token} (h : Leaves (primary ts) e rest) :
    rest <:+ ts := by
  obtain ⟨-, pre, rfl, -⟩ := derives_primary h
  exact List.suffix_append pre rest

mutual

theorem failsAt_primary (ts : List Token) : FailsAt ts (primary ts) := by
  -- The measure speaks of `ts`, so the case split has to leave it alone.
  generalize hus : ts = us
  have hlen := congrArg List.length hus
  unfold primary
  split
  · exact (failsAt_expectWord _).bind fun _ _ => .ok _
  · exact (failsAt_expectName _).tail.bind fun _ _ => .ok _
  · refine (failsAt_binary 0 _).tail.bind fun ⟨a, r, hr⟩ ha => ?_
    exact ((failsAt_expect _ r).mono (suffix_of_binary ⟨hr, ha⟩)).tail.bind fun _ _ => .ok _
  · split
    · refine (failsAt_binary 0 _).tail.tail.bind fun ⟨a, r, hr⟩ ha => ?_
      exact ((failsAt_expect _ r).mono (suffix_of_binary ⟨hr, ha⟩)).tail.tail.bind fun _ _ => .ok _
    · exact .ok _
  · exact .ok _
  · refine (failsAt_arguments _).tail.tail.bind fun ⟨a, r, hr⟩ ha => ?_
    exact ((failsAt_expect _ r).mono (suffix_of_arguments ⟨hr, ha⟩)).tail.tail.bind fun _ _ => .ok _
  · exact .ok _
  · refine (failsAt_binary 0 _).tail.bind fun ⟨a, r, hr⟩ ha => ?_
    exact ((failsAt_expect _ r).mono (suffix_of_binary ⟨hr, ha⟩)).tail.bind fun _ _ => .ok _
  · exact .front _ _
termination_by (ts.length, 0)
decreasing_by
  all_goals
    apply Prod.Lex.left
    simp only [List.length_cons] at hlen
    omega

theorem failsAt_binary (min : Nat) (ts : List Token) : FailsAt ts (binary min ts) := by
  unfold binary
  refine (failsAt_primary ts).bind fun ⟨l, r, hr⟩ hl => ?_
  exact ((failsAt_climb min l r).mono (suffix_of_primary ⟨hr, hl⟩)).bind fun _ _ => .ok _
termination_by (ts.length, 1)
decreasing_by
  · exact Prod.Lex.right _ (Nat.lt_succ_self _)
  · exact Prod.Lex.left _ _ hr

theorem failsAt_climb (min : Nat) (l : Expr) (ts : List Token) : FailsAt ts (climb min l ts) := by
  generalize hus : ts = us
  have hlen := congrArg List.length hus
  unfold climb
  split
  · split
    · refine (failsAt_binary _ _).tail.bind fun ⟨a, r, hr⟩ ha => ?_
      exact ((failsAt_climb min _ r).mono (suffix_of_binary ⟨hr, ha⟩)).tail.bind fun _ _ => .ok _
    · exact .ok _
  · exact .ok _
termination_by (ts.length, 0)
decreasing_by
  all_goals
    apply Prod.Lex.left
    simp only [List.length_cons] at hlen
    omega

theorem failsAt_arguments (ts : List Token) : FailsAt ts (arguments ts) := by
  unfold arguments
  refine (failsAt_binary 0 ts).bind fun ⟨e, r, hr⟩ he => ?_
  have hsuffix := suffix_of_binary ⟨hr, he⟩
  dsimp only
  split
  · exact ((failsAt_arguments _).tail.mono hsuffix).bind fun _ _ => .ok _
  · exact .ok _
termination_by (ts.length, 2)
decreasing_by
  · exact Prod.Lex.right _ (Nat.lt_succ_self _)
  · exact Prod.Lex.left _ _ (Nat.lt_of_succ_lt hr)

end

theorem failsAt_read (ts : List Token) : FailsAt ts (read ts) := failsAt_binary 0 ts

theorem failsAt_readBracketed (ts : List Token) : FailsAt ts (readBracketed ts) := by
  refine (failsAt_expect _ ts).bind fun ⟨r, hr⟩ hopen => ?_
  have hr' := suffix_of_expect hopen
  refine ((failsAt_read r).mono hr').bind fun ⟨a, s, hs⟩ ha => ?_
  exact ((failsAt_expect _ s).mono ((suffix_of_read ha).trans hr')).bind fun _ _ => .ok _

end Expr

theorem Target.failsAt_read (ts : List Token) : FailsAt ts (read ts) := by
  unfold read
  split
  · exact (Expr.failsAt_readBracketed _).bind fun _ _ => .ok _
  · exact (Expr.failsAt_readBracketed _).tail.bind fun _ _ => .ok _
  · exact (failsAt_expectName _).bind fun _ _ => .ok _

namespace Stmt

open BrownLang.Expr (Leaves)

theorem suffix_of_read {o : Origin} {s : Stmt} {ts rest : List Token}
    (h : Leaves (read o ts) s rest) : rest <:+ ts := (standsAt_of_read h).1

theorem suffix_of_readBlock {o : Origin} {ending : Ending} {b : Block} {ts rest : List Token}
    (h : Leaves (readBlock o ending ts) b rest) : rest <:+ ts := (standsAt_of_readBlock h).1

theorem failsAt_lineEnd (ending : Ending) (ts : List Token) : FailsAt ts (lineEnd ending ts) := by
  unfold lineEnd
  dsimp only
  split
  · exact .ok _
  · exact .front _ _

theorem failsAt_paramsFrom (before : List String) (ts : List Token) :
    FailsAt ts (paramsFrom before ts) := by
  by_cases hname : ∃ x p us, ts = ⟨.name x, p⟩ :: us
  · obtain ⟨x, p, us, rfl⟩ := hname
    by_cases hx : x ∈ before
    · rw [paramsFrom_duplicate hx]
      exact .token List.mem_cons_self _
    by_cases hcomma : ∃ q more, us = ⟨.punct .comma, q⟩ :: more
    · obtain ⟨q, more, rfl⟩ := hcomma
      rw [paramsFrom_comma, if_neg hx]
      exact (failsAt_paramsFrom _ more).tail.tail.bind fun _ _ => .ok _
    · rw [paramsFrom_last before x p fun q more heq => hcomma ⟨q, more, heq⟩, if_neg hx]
      exact (failsAt_expect _ us).tail.bind fun _ _ => .ok _
  · rw [paramsFrom_no_name before fun x p us heq => hname ⟨x, p, us, heq⟩]
    exact .front _ _
termination_by ts.length

theorem failsAt_params (ts : List Token) : FailsAt ts (params ts) := by
  unfold params
  refine (failsAt_expect _ ts).bind fun ⟨r, hr⟩ hopen => ?_
  dsimp only
  split
  · exact .ok _
  · exact ((failsAt_paramsFrom _ _).mono (suffix_of_expect hopen)).bind fun _ _ => .ok _

theorem failsAt_simple (o : Origin) (ts : List Token) : FailsAt ts (simple o ts) := by
  unfold simple
  refine (Expr.failsAt_read ts).bind fun ⟨e, r, hr⟩ he => ?_
  have hsuffix := Expr.suffix_of_read he
  dsimp only
  split
  · exact ((Target.failsAt_read _).tail.mono hsuffix).bind fun _ _ => .ok _
  · split
    · exact .ok _
    · exact .front _ _

mutual

theorem failsAt_read (o : Origin) (ts : List Token) : FailsAt ts (read o ts) := by
  generalize hus : ts = us
  have hlen := congrArg List.length hus
  unfold read
  split
  next p rest =>
    refine (Expr.failsAt_read rest).tail.bind fun ⟨c, r, hr⟩ hc => ?_
    have hsuffix := Expr.suffix_of_read hc
    refine ((failsAt_readBlock o .branch r).mono hsuffix).tail.bind fun ⟨yes, r₁, h₁⟩ hyes => ?_
    have hsuffix₁ := (suffix_of_readBlock ⟨h₁, hyes⟩).trans hsuffix
    dsimp only
    split
    next q r₂ hle =>
      have h₂ : r₂.length < r.length := hle
      refine ((failsAt_readBlock o .body r₂).tail.mono hsuffix₁).tail.bind fun ⟨no, r₃, h₃⟩ hno => ?_
      have hsuffix₃ := (suffix_of_readBlock ⟨h₃, hno⟩).trans
        ((List.suffix_cons _ _).trans hsuffix₁)
      exact ((failsAt_expect _ r₃).mono hsuffix₃).tail.bind fun _ _ => .ok _
    next =>
      exact ((failsAt_expect _ _).mono hsuffix₁).tail.bind fun _ _ => .ok _
  next p rest =>
    refine (Expr.failsAt_read rest).tail.bind fun ⟨c, r, hr⟩ hc => ?_
    have hsuffix := Expr.suffix_of_read hc
    refine ((failsAt_readBlock o .body r).mono hsuffix).tail.bind fun ⟨body, r₁, h₁⟩ hbody => ?_
    have hsuffix₁ := (suffix_of_readBlock ⟨h₁, hbody⟩).trans hsuffix
    exact ((failsAt_expect _ r₁).mono hsuffix₁).tail.bind fun _ _ => .ok _
  next p rest =>
    refine (failsAt_expectName rest).tail.bind fun ⟨x, r, hr⟩ hx => ?_
    have hsuffix := suffix_of_expectName hx
    refine ((failsAt_expect _ r).mono hsuffix).tail.bind fun ⟨r₁, h₁⟩ hfrom => ?_
    have hsuffix₁ := (suffix_of_expect hfrom).trans hsuffix
    refine ((Expr.failsAt_read r₁).mono hsuffix₁).tail.bind fun ⟨a, r₂, h₂⟩ ha => ?_
    have hsuffix₂ := (Expr.suffix_of_read ha).trans hsuffix₁
    refine ((failsAt_expect _ r₂).mono hsuffix₂).tail.bind fun ⟨r₃, h₃⟩ hto => ?_
    have hsuffix₃ := (suffix_of_expect hto).trans hsuffix₂
    refine ((Expr.failsAt_read r₃).mono hsuffix₃).tail.bind fun ⟨b, r₄, h₄⟩ hb => ?_
    have hsuffix₄ := (Expr.suffix_of_read hb).trans hsuffix₃
    refine ((failsAt_readBlock o .body r₄).mono hsuffix₄).tail.bind fun ⟨body, r₅, h₅⟩ hbody => ?_
    have hsuffix₅ := (suffix_of_readBlock ⟨h₅, hbody⟩).trans hsuffix₄
    exact ((failsAt_expect _ r₅).mono hsuffix₅).tail.bind fun _ _ => .ok _
  next p rest =>
    refine (failsAt_expectName rest).tail.bind fun ⟨f, r, hr⟩ hf => ?_
    have hsuffix := suffix_of_expectName hf
    refine ((failsAt_params r).mono hsuffix).tail.bind fun ⟨ps, r₁, h₁⟩ hps => ?_
    have hsuffix₁ := (suffix_of_preserveMark r₁).trans ((suffix_of_params hps).trans hsuffix)
    dsimp only
    generalize preserveMark r₁ = mark at hsuffix₁
    obtain ⟨keep, r₂, h₂⟩ := mark
    dsimp only at hsuffix₁ ⊢
    refine ((failsAt_readBlock o .body r₂).mono hsuffix₁).tail.bind fun ⟨body, r₃, h₃⟩ hbody => ?_
    have hsuffix₃ := (suffix_of_readBlock ⟨h₃, hbody⟩).trans hsuffix₁
    exact ((failsAt_expect _ r₃).mono hsuffix₃).tail.bind fun _ _ => .ok _
  next p rest => exact (failsAt_expectName rest).tail.bind fun _ _ => .ok _
  next => exact .ok _
  next => exact failsAt_simple o _
termination_by (ts.length, 0)
decreasing_by
  all_goals
    apply Prod.Lex.left
    simp only [List.length_cons] at *
    omega

theorem failsAt_readBlock (o : Origin) (ending : Ending) (ts : List Token) :
    FailsAt ts (readBlock o ending ts) := by
  generalize hus : ts = us
  have hlen := congrArg List.length hus
  unfold readBlock
  split
  next =>
    split
    · exact .ok _
    · exact .front _ _
  next t rest =>
    split
    next => exact .ok _
    next =>
      split
      next => exact (failsAt_readBlock o ending rest).tail.bind fun _ _ => .ok _
      next =>
        refine (failsAt_read o (t :: rest)).bind fun ⟨s, r, hr⟩ hs => ?_
        have hsuffix := suffix_of_read ⟨hr, hs⟩
        refine ((failsAt_lineEnd ending r).mono hsuffix).bind fun _ _ => ?_
        exact ((failsAt_readBlock o ending r).mono hsuffix).bind fun _ _ => .ok _
termination_by (ts.length, 1)
decreasing_by
  · rw [hlen]
    exact Prod.Lex.right _ (Nat.lt_succ_self _)
  · exact Prod.Lex.left _ _ (by rw [hlen]; exact hr)
  · exact Prod.Lex.left _ _ (by rw [hlen]; exact Nat.lt_succ_self _)

end

end Stmt

theorem DataItem.failsAt_readAll (ts : List Token) : FailsAt ts (readAll ts) := by
  induction ts using readAll.induct with
  | case1 p us =>
      rw [readAll]
      exact .ok _
  | case2 p us ih =>
      rw [readAll]
      exact ih.tail
  | case3 x p q us ih =>
      rw [readAll]
      exact ih.tail.tail.bind fun _ _ => .ok _
  | case4 s p us ih =>
      rw [readAll]
      exact ih.tail.bind fun _ _ => .ok _
  | case5 n p us hn ih =>
      rw [readAll, if_pos hn]
      exact ih.tail.bind fun _ _ => .ok _
  | case6 n p us hn =>
      rw [readAll, if_neg hn]
      exact .token List.mem_cons_self _
  | case7 p n q us hn ih =>
      rw [readAll, if_pos hn]
      exact ih.tail.tail.bind fun _ _ => .ok _
  | case8 p n q us hn =>
      rw [readAll, if_neg hn]
      exact .token (List.mem_cons_of_mem _ List.mem_cons_self) _
  | case9 p us hus =>
      rw [readAll]
      · exact (FailsAt.front us _).tail
      · exact hus
  | case10 us =>
      rw [readAll]
      · exact .front us _
      all_goals assumption

namespace Source

theorem failsAt_readData (ts : List Token) : FailsAt ts (readData ts) := by
  unfold readData
  split
  · refine (DataItem.failsAt_readAll _).tail.bind fun ⟨items, r⟩ hitems => ?_
    have hsuffix := DataItem.suffix_of_readAll hitems
    exact ((Stmt.failsAt_lineEnd _ r).mono hsuffix).tail.bind fun _ _ => .ok _
  · exact .ok _

theorem failsAt_read (o : Origin) (ts : List Token) : FailsAt ts (read o ts) := by
  have hlines := List.dropWhile_suffix (p := fun t : Token => decide (t.lexeme = .newline)) (l := ts)
  refine ((failsAt_readData _).mono hlines).bind fun ⟨data, r⟩ hdata => ?_
  have hsuffix := (suffix_of_readData hdata).trans hlines
  exact ((Stmt.failsAt_readBlock o .file r).mono hsuffix).bind fun _ _ => .ok _

end Source

end BrownLang
