import BrownLang.Proofs.Syntax.Locations
import BrownLang.Proofs.Syntax.RoundTrip

/-!
# The parts of what is read

A file that is read is well formed as a whole.  Here this is said of each of its
parts by itself, however deep it stands: of the expressions in an expression, the
statements in a block, and the items of the data section with the tokens that
they were read from.
-/

namespace BrownLang

/-- Letters, digits and underscores with no digit first, but no keyword and so no sign. -/
structure Token.Identifier (x : String) : Prop where
  spelled : ∃ c cs, x.toList = c :: cs ∧ isNameStart c ∧ ∀ d ∈ cs, isNamePart d
  noKeyword : ∀ k : Keyword, x ≠ k.spelling
  noDollar : '$' ∉ x.toList

theorem Token.identifier_of_isName {x : String} (h : isName x) : Identifier x := by
  obtain ⟨c, cs, hlist, hc, hcs, hkeyword⟩ := spelled_of_isName h
  refine ⟨⟨c, cs, hlist, hc, hcs⟩, ?_, ?_⟩
  · rintro k rfl
    cases k <;> revert hkeyword <;> decide
  · rw [hlist]
    intro hmem
    rcases List.mem_cons.mp hmem with rfl | hmem
    · exact absurd hc (by decide)
    · exact absurd (hcs _ hmem) (by decide)

open Token (Identifier identifier_of_isName)

/-! ## Expressions -/

namespace Expr

inductive PartOf (d : Expr) : Expr → Prop
  | self : PartOf d d
  | word {a} : PartOf d a → PartOf d (.word a)
  | byte {a} : PartOf d a → PartOf d (.byte a)
  | left {op l r} : PartOf d l → PartOf d (.bin op l r)
  | right {op l r} : PartOf d r → PartOf d (.bin op l r)
  | arg {f args a} : a ∈ args → PartOf d a → PartOf d (.call f args)

theorem wellFormed_of_mem {es : List Expr} (h : wellFormedAll es) {e : Expr} (he : e ∈ es) :
    e.wellFormed := by
  induction es with
  | nil => cases he
  | cons a es ih =>
      rw [wellFormedAll, Bool.and_eq_true] at h
      rcases List.mem_cons.mp he with rfl | he
      · exact h.1
      · exact ih h.2 he

theorem PartOf.wellFormed {d e : Expr} (h : d.PartOf e) (he : e.wellFormed) : d.wellFormed := by
  induction h with
  | self => exact he
  | word _ ih | byte _ ih => exact ih he
  | left _ ih =>
      rw [Expr.wellFormed, Bool.and_eq_true, Bool.and_eq_true] at he
      exact ih he.1.2
  | right _ ih =>
      rw [Expr.wellFormed, Bool.and_eq_true] at he
      exact ih he.2
  | arg ha _ ih =>
      rw [Expr.wellFormed, Bool.and_eq_true] at he
      exact ih (wellFormed_of_mem he.2 ha)

/-- The number, the name or the operator at the top of an expression is as it should be. -/
def Proper : Expr → Prop
  | lit n => n < Word.count
  | var x | addr x | call x _ => Identifier x
  | bin op _ _ => ∃ o, op = .known o ∧ Operator.ofSymbol? op.symbol = some o
  | word _ | byte _ => True

theorem proper_of_wellFormed {e : Expr} (h : e.wellFormed) : e.Proper := by
  cases e with
  | lit n => exact of_decide_eq_true (p := n < Word.count) h
  | var x | addr x => exact identifier_of_isName h
  | word a | byte a => trivial
  | bin op l r =>
      rw [wellFormed, Bool.and_eq_true, Bool.and_eq_true] at h
      cases op with
      | known o => exact ⟨o, rfl, by cases o <;> decide⟩
      | unknown s => cases h.1.1
  | call f args =>
      rw [wellFormed, Bool.and_eq_true] at h
      exact identifier_of_isName h.1

end Expr

def Target.exprs : Target → List Expr
  | var _ => []
  | word a | byte a => [a]

/-! ## Statements -/

namespace Stmt

def exprs : Stmt → List Expr
  | assign t e _ => e :: t.exprs
  | forLoop _ a b _ _ => [a, b]
  | whileLoop c _ _ | ifThen c _ _ | ifElse c _ _ _ => [c]
  | eval e _ => [e]
  | goto .. | label .. | function .. => []

def Proper : Stmt → Prop
  | assign (.var x) _ _ | forLoop x _ _ _ _ | goto x _ | label x _ => Identifier x
  | function f ps _ _ _ => Identifier f ∧ (∀ x ∈ ps, Identifier x) ∧ ps.Nodup
  | eval e _ => ∃ f args, e = .call f args
  | assign .. | whileLoop .. | ifThen .. | ifElse .. => True

mutual

theorem wellFormed_of_mem_parts {s t : Stmt} (ht : t ∈ s.parts) (h : s.wellFormed) :
    t.wellFormed := by
  match s with
  | forLoop x a b body l =>
      rcases List.mem_cons.mp ht with rfl | ht
      · exact h
      · rw [wellFormed, Bool.and_eq_true] at h
        exact wellFormed_of_mem_partsAll ht h.2
  | whileLoop c body l | ifThen c body l =>
      rcases List.mem_cons.mp ht with rfl | ht
      · exact h
      · rw [wellFormed, Bool.and_eq_true] at h
        exact wellFormed_of_mem_partsAll ht h.2
  | ifElse c yes no l =>
      rcases List.mem_cons.mp ht with rfl | ht
      · exact h
      · rw [wellFormed, Bool.and_eq_true, Bool.and_eq_true] at h
        rcases List.mem_append.mp ht with ht | ht
        · exact wellFormed_of_mem_partsAll ht h.1.2
        · exact wellFormed_of_mem_partsAll ht h.2
  | function f ps keep body l =>
      rcases List.mem_cons.mp ht with rfl | ht
      · exact h
      · rw [wellFormed, Bool.and_eq_true] at h
        exact wellFormed_of_mem_partsAll ht h.2
  | assign .. | goto .. | label .. | eval .. =>
      rw [List.mem_singleton.mp ht]
      exact h

theorem wellFormed_of_mem_partsAll {b : Block} {t : Stmt} (ht : t ∈ partsAll b)
    (h : wellFormedAll b) : t.wellFormed := by
  match b with
  | s :: rest =>
      rw [wellFormedAll, Bool.and_eq_true] at h
      rcases List.mem_append.mp ht with ht | ht
      · exact wellFormed_of_mem_parts ht h.1
      · exact wellFormed_of_mem_partsAll ht h.2

end

theorem proper_of_wellFormed {s : Stmt} (h : s.wellFormed) : s.Proper := by
  cases s with
  | assign t e l =>
      rw [wellFormed, Bool.and_eq_true] at h
      cases t with
      | var x => exact identifier_of_isName h.1
      | word a | byte a => trivial
  | forLoop x a b body l =>
      simp only [wellFormed, Bool.and_eq_true] at h
      exact identifier_of_isName h.1.1.1
  | goto x l | label x l => exact identifier_of_isName h
  | function f ps keep body l =>
      simp only [wellFormed, Bool.and_eq_true, List.all_eq_true, decide_eq_true_eq] at h
      exact ⟨identifier_of_isName h.1.1.1, fun x hx => identifier_of_isName (h.1.1.2 x hx), h.1.2⟩
  | eval e l =>
      rw [wellFormed, Bool.and_eq_true] at h
      cases e with
      | call f args => exact ⟨f, args, rfl⟩
      | _ => cases h.1
  | whileLoop | ifThen | ifElse => trivial

theorem wellFormed_of_mem_exprs {s : Stmt} (h : s.wellFormed) {e : Expr} (he : e ∈ s.exprs) :
    e.wellFormed := by
  cases s with
  | assign t d l =>
      rw [wellFormed, Bool.and_eq_true] at h
      rcases List.mem_cons.mp he with rfl | he
      · exact h.2
      · cases t with
        | var x => cases he
        | word a | byte a =>
            rw [List.mem_singleton.mp he]
            exact h.1
  | forLoop x a b body l =>
      simp only [wellFormed, Bool.and_eq_true] at h
      simp only [exprs, List.mem_cons, List.not_mem_nil, or_false] at he
      rcases he with rfl | rfl
      · exact h.1.1.2
      · exact h.1.2
  | whileLoop c body l | ifThen c body l =>
      simp only [wellFormed, Bool.and_eq_true] at h
      rw [List.mem_singleton.mp he]
      exact h.1
  | ifElse c yes no l =>
      simp only [wellFormed, Bool.and_eq_true] at h
      rw [List.mem_singleton.mp he]
      exact h.1.1
  | eval d l =>
      simp only [wellFormed, Bool.and_eq_true] at h
      rw [List.mem_singleton.mp he]
      exact h.2
  | goto | label | function => cases he

end Stmt

/-! ## The data section -/

/-- What an item of the data section is read from. -/
inductive DataItem.Says : List Lexeme → DataItem → Prop
  | label {x} : Token.Identifier x → Says [.name x, .punct .colon] (.label x)
  | string {s} : Says [.string s] (.bytes s.toUTF8.data.toList)
  | byte {n b} : b.toNat = n → Says [.number n] (.bytes [b])
  | word {n a b c d} : Word.ofBytes a b c d = n →
      Says [.keyword .kwWord, .number n] (.bytes [a, b, c, d])

inductive DataItem.SaysAll : List Lexeme → List DataItem → Prop
  | none : SaysAll [] []
  | newline {ls items} : SaysAll ls items → SaysAll (.newline :: ls) items
  | item {front ls item items} : item.Says front → SaysAll ls items →
      SaysAll (front ++ ls) (item :: items)

/-- The lexemes of a file begin with this data section, unless it has no items. -/
def DataItem.SectionOf (ls : List Lexeme) (items : List DataItem) : Prop :=
  items = [] ∨ ∃ before body after, (∀ l ∈ before, l = .newline) ∧ SaysAll body items ∧
    ls = before ++ .keyword .kwData :: (body ++ .keyword .kwEnd :: after)

theorem DataItem.saysAll_of_readAll {ts rest : List Token} {items : List DataItem}
    (h : readAll ts = .ok (items, rest)) (hts : Token.Named ts) :
    ∃ ls, SaysAll ls items ∧
      ts.map Token.lexeme = ls ++ .keyword .kwEnd :: rest.map Token.lexeme := by
  induction ts using readAll.induct generalizing items with
  | case1 p us =>
      rw [readAll] at h
      cases h
      exact ⟨[], .none, rfl⟩
  | case2 p us ih =>
      rw [readAll] at h
      obtain ⟨ls, hls, hus⟩ := ih h hts.tail
      exact ⟨.newline :: ls, .newline hls, congrArg (Lexeme.newline :: ·) hus⟩
  | case3 x p q us ih =>
      rw [readAll] at h
      obtain ⟨⟨items', r⟩, hread, h⟩ := Reader.bind_eq_ok.mp h
      cases h
      obtain ⟨ls, hls, hus⟩ := ih hread hts.tail.tail
      refine ⟨_, .item (.label (identifier_of_isName hts.name)) hls, ?_⟩
      simpa using hus
  | case4 s p us ih =>
      rw [readAll] at h
      obtain ⟨⟨items', r⟩, hread, h⟩ := Reader.bind_eq_ok.mp h
      cases h
      obtain ⟨ls, hls, hus⟩ := ih hread hts.tail
      refine ⟨_, .item .string hls, ?_⟩
      simpa using hus
  | case5 n p us hn ih =>
      rw [readAll, if_pos hn] at h
      obtain ⟨⟨items', r⟩, hread, h⟩ := Reader.bind_eq_ok.mp h
      cases h
      obtain ⟨ls, hls, hus⟩ := ih hread hts.tail
      refine ⟨_, .item (.byte (UInt8.toNat_ofNat_of_lt hn)) hls, ?_⟩
      simpa using hus
  | case6 n p us hn =>
      rw [readAll, if_neg hn] at h
      cases h
  | case7 p n q us hn ih =>
      rw [readAll, if_pos hn] at h
      obtain ⟨⟨items', r⟩, hread, h⟩ := Reader.bind_eq_ok.mp h
      cases h
      obtain ⟨ls, hls, hus⟩ := ih hread hts.tail.tail
      refine ⟨_, .item (.word (Word.ofBytes_bytes hn)) hls, ?_⟩
      simpa using hus
  | case8 p n q us hn =>
      rw [readAll, if_neg hn] at h
      cases h
  | case9 p us hus =>
      rw [readAll] at h
      · cases h
      · exact hus
  | case10 us =>
      rw [readAll] at h
      · cases h
      all_goals assumption

namespace Source

theorem sectionOf_of_readData {ts rest : List Token} {items : List DataItem}
    (h : readData (ts.dropWhile (·.lexeme = .newline)) = .ok (items, rest))
    (hts : Token.Named ts) : DataItem.SectionOf (ts.map Token.lexeme) items := by
  have hdrop : Token.Named (ts.dropWhile (·.lexeme = .newline)) :=
    fun t ht => hts t ((List.dropWhile_sublist _).subset ht)
  have hlines : ∀ l ∈ (ts.takeWhile (·.lexeme = .newline)).map Token.lexeme, l = .newline := by
    intro l hl
    obtain ⟨t, ht, rfl⟩ := List.mem_map.mp hl
    simpa using List.mem_takeWhile_imp ht
  have hsplit := congrArg (List.map Token.lexeme)
    (List.takeWhile_append_dropWhile (p := fun t : Token => decide (t.lexeme = .newline)) (l := ts))
  rw [List.map_append] at hsplit
  unfold readData at h
  split at h
  next p us hus =>
    rw [hus] at hdrop hsplit
    obtain ⟨⟨items', r⟩, hread, h⟩ := Reader.bind_eq_ok.mp h
    obtain ⟨_, -, h⟩ := Reader.bind_eq_ok.mp h
    cases h
    obtain ⟨body, hbody, hlexemes⟩ := DataItem.saysAll_of_readAll hread hdrop.tail
    refine .inr ⟨_, body, rest.map Token.lexeme, hlines, hbody, ?_⟩
    rw [← hsplit, ← hlexemes]
    rfl
  next =>
    cases h
    exact .inl rfl

/--
Each statement of a file that is read, and each expression in one, has proper
names, numbers and operators, at every depth; the items of the data section are
what its lexemes say.
-/
theorem parts_proper {file text : String} {src : Source} (h : parse file text = .ok src) :
    (∀ s ∈ Stmt.partsAll src.code,
      s.Proper ∧ ∀ d ∈ s.exprs, ∀ e : Expr, e.PartOf d → e.Proper) ∧
    ∃ ts last, Token.scan text = .ok (ts, last) ∧
      DataItem.SectionOf (ts.map Token.lexeme) src.data := by
  constructor
  · intro s hs
    have hwell := Stmt.wellFormed_of_mem_partsAll hs (wellFormed_of_parse h).code
    refine ⟨Stmt.proper_of_wellFormed hwell, fun d hd e he => ?_⟩
    exact Expr.proper_of_wellFormed (he.wellFormed (Stmt.wellFormed_of_mem_exprs hwell hd))
  · obtain ⟨⟨ts, last⟩, hscan, h⟩ := Reader.bind_eq_ok.mp h
    refine ⟨ts, last, hscan, ?_⟩
    dsimp only at h
    split at h
    next hread =>
      cases h
      obtain ⟨⟨items, r⟩, hdata, hread⟩ := Reader.bind_eq_ok.mp hread
      obtain ⟨⟨code, rest⟩, -, hread⟩ := Reader.bind_eq_ok.mp hread
      cases hread
      exact sectionOf_of_readData hdata (Token.named_of_scanFrom hscan)
    next => cases h

def ledger : Source where
  data := [.label "tag", .bytes [7], .bytes [0, 0, 1, 2]]
  code :=
    [.function "f" [] false
      [.eval (.call "f" [.bin (.known .add) (.var "x") (.lit 1)])
        (some ⟨"ledger", 3, 3, "f(x + 1)"⟩)] (some ⟨"ledger", 2, 1, "fun f()"⟩)]

theorem ledger_parts_proper :
    let text := "data tag: 7 word 258 end\nfun f()\n  f(x + 1)\nend"
    parse "ledger" text = .ok ledger ∧ (∀ s ∈ Stmt.partsAll ledger.code, s.Proper) ∧
      ∃ ts last, Token.scan text = .ok (ts, last) ∧
        DataItem.SectionOf (ts.map Token.lexeme) ledger.data := by
  intro text
  have hparse : parse "ledger" text = .ok ledger := by
    dsimp only [text]
    cbv
  obtain ⟨hcode, hdata⟩ := parts_proper hparse
  exact ⟨hparse, fun s hs => (hcode s hs).1, hdata⟩

end Source

end BrownLang
