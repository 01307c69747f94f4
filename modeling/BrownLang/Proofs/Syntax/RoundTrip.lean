import BrownLang.Proofs.Memory.Bytes
import BrownLang.Proofs.Syntax.ReadStmt
import BrownLang.Proofs.Syntax.Spelling
import BrownLang.Source.Parse

/-!
# The round trip through canonical texts

A well-formed source file, printed and parsed, comes back: the scanner finds
the lexemes of the file in its canonical text, and the readers find the file in
the lexemes.
-/

namespace BrownLang

open Reader

/-! ## Data sections -/

namespace DataItem

theorem readAll_lexemes (item : DataItem) (hitem : item.WellFormed) {ts : List Token}
    {ls : List Lexeme} (h : ts.map Token.lexeme = item.lexemes ++ .newline :: ls) :
    ∃ rest, rest.map Token.lexeme = ls ∧
      readAll ts = (do
        let (items, r) ← readAll rest
        return (item :: items, r)) := by
  unfold lexemes at h
  split at h
  next x =>
    obtain ⟨p, colon, rfl, hcolon⟩ := spell_cons h
    obtain ⟨q, line, rfl, hline⟩ := spell_cons hcolon
    obtain ⟨r, rest, rfl, hrest⟩ := spell_cons hline
    exact ⟨rest, hrest, by rw [readAll, readAll]⟩
  next b =>
    obtain ⟨p, line, rfl, hline⟩ := spell_cons h
    obtain ⟨q, rest, rfl, hrest⟩ := spell_cons hline
    refine ⟨rest, hrest, ?_⟩
    rw [readAll, if_pos b.toNat_lt, UInt8.ofNat_toNat, readAll]
  next a b c d =>
    obtain ⟨p, number, rfl, hnumber⟩ := spell_cons h
    obtain ⟨q, line, rfl, hline⟩ := spell_cons hnumber
    obtain ⟨r, rest, rfl, hrest⟩ := spell_cons hline
    refine ⟨rest, hrest, ?_⟩
    rw [readAll, if_pos (Word.ofBytes_lt a b c d), Word.bytes_ofBytes, readAll]
  next bs hone hfour =>
    obtain ⟨s, rfl⟩ := hitem.string hone hfour
    rw [fromUTF8?_toUTF8] at h
    obtain ⟨p, line, rfl, hline⟩ := spell_cons h
    obtain ⟨q, rest, rfl, hrest⟩ := spell_cons hline
    exact ⟨rest, hrest, by rw [readAll, readAll]⟩

theorem readAll_lexemesAll (items : List DataItem)
    (hitems : ∀ item ∈ items, item.WellFormed) {ts : List Token} {ls : List Lexeme}
    (h : ts.map Token.lexeme = lexemesAll items ++ .keyword .kwEnd :: ls) :
    ∃ rest, readAll ts = .ok (items, rest) ∧ rest.map Token.lexeme = ls := by
  induction items generalizing ts with
  | nil =>
      obtain ⟨p, rest, rfl, hrest⟩ := spell_cons h
      exact ⟨rest, by rw [readAll], hrest⟩
  | cons item items ih =>
      simp only [lexemesAll, List.append_assoc, List.cons_append] at h
      obtain ⟨more, hmore, hitem⟩ := item.readAll_lexemes (hitems item (by simp)) h
      obtain ⟨rest, hread, hrest⟩ := ih (fun i hi => hitems i (List.mem_cons_of_mem _ hi)) hmore
      refine ⟨rest, ?_, hrest⟩
      rw [hitem, hread]
      rfl

end DataItem

/-! ## Source files -/

namespace Source

theorem readData_of_code {b : Block} {ts : List Token}
    (h : ts.map Token.lexeme = Stmt.lexemesAll b) :
    ts.dropWhile (·.lexeme = .newline) = ts ∧ readData ts = .ok ([], ts) := by
  cases b with
  | nil =>
      obtain rfl := List.map_eq_nil_iff.mp h
      exact ⟨rfl, rfl⟩
  | cons s rest =>
      obtain ⟨l, ls, hs, hl⟩ := s.lexemes_begins
      rw [Stmt.lexemesAll, hs] at h
      obtain ⟨p, more, rfl, -⟩ := spell_cons h
      have hnewline := Stmt.ne_newline_of_begins hl
      refine ⟨List.dropWhile_cons_of_neg (by simpa using hnewline), ?_⟩
      unfold readData
      split
      next heq =>
        cases heq
        exact nomatch hl
      next => rfl

theorem readData_of_data {items : List DataItem} (hitems : ∀ item ∈ items, item.WellFormed)
    {ts : List Token} {ls : List Lexeme}
    (h : ts.map Token.lexeme = .keyword .kwData :: .newline ::
      (DataItem.lexemesAll items ++ .keyword .kwEnd :: .newline :: ls)) :
    ts.dropWhile (·.lexeme = .newline) = ts ∧
      ∃ rest, readData ts = .ok (items, rest) ∧ rest.map Token.lexeme = .newline :: ls := by
  obtain ⟨p, line, rfl, hline⟩ := spell_cons h
  obtain ⟨q, more, rfl, hmore⟩ := spell_cons hline
  obtain ⟨rest, hread, hrest⟩ := DataItem.readAll_lexemesAll items hitems hmore
  refine ⟨rfl, rest, ?_, hrest⟩
  simp only [readData, DataItem.readAll, hread, bind, Except.bind, Stmt.lineEnd_of_newline hrest]
  rfl

theorem read_lexemes (o : Origin) {s : Source} (hs : s.WellFormed) {ts : List Token}
    (h : ts.map Token.lexeme = s.lexemes) :
    ∃ s', read o ts = .ok s' ∧ s'.unlocated = s.unlocated := by
  obtain ⟨data, code⟩ := s
  unfold read
  cases data with
  | nil =>
      have hcode : ts.map Token.lexeme = Stmt.lexemesAll code := h
      obtain ⟨hdrop, hdata⟩ := readData_of_code hcode
      obtain ⟨code', ⟨rest, hle, hread, -⟩, hsame⟩ :=
        Stmt.reads_readBlock o .file code hs.code (hcode.trans (List.append_nil _).symm) rfl
      simp only [hdrop, hdata, bind, Except.bind, hread]
      exact ⟨_, rfl, by simp only [unlocated, hsame]⟩
  | cons item items =>
      simp only [lexemes, List.isEmpty_cons, Bool.false_eq_true, if_false, List.append_assoc,
        List.cons_append, List.nil_append] at h
      obtain ⟨hdrop, r, hdata, hr⟩ := readData_of_data hs.data h
      have hlines : r.map Token.lexeme = .newline :: (Stmt.lexemesAll code ++ []) := by
        rw [hr, List.append_nil]
      obtain ⟨code', ⟨rest, hle, hread, -⟩, hsame⟩ :=
        Stmt.reads_lines o .file code hs.code hlines rfl
      simp only [hdrop, hdata, bind, Except.bind, hread]
      exact ⟨_, rfl, by simp only [unlocated, hsame]⟩

/-- Printing a well-formed file and parsing the text gives the file, but for its locations. -/
theorem parse_print (s : Source) (hs : s.WellFormed) (file : String) :
    ∃ s', parse file s.print = .ok s' ∧ s'.unlocated = s.unlocated := by
  obtain ⟨ts, last, hscan, hts⟩ := (s.scans_print hs).scanFrom_eq .start
  obtain ⟨s', hread, hsame⟩ := read_lexemes (Origin.ofText file s.print) hs hts
  refine ⟨s', ?_, hsame⟩
  have htokens : Token.scan s.print = .ok (ts, last) := hscan
  simp only [parse, htokens, bind, Except.bind, hread]

def sampler : Source where
  data := [.label "text", .bytes "say \"hi\"\n".toUTF8.data.toList, .bytes [7], .bytes [0, 0, 1, 4]]
  code :=
    [.function "b" ["x", "y"] true
      [.ifElse (.bin (.known .lt) (.var "x") (.lit 3))
        [.assign (.byte (.addr "b")) (.byte (.word (.var "y"))) none]
        [.goto "b" none] none,
      .label "b" none] none,
    .forLoop "i" (.lit 0) (.call "b" [.lit 1, .bin (.known .shl) (.var "b") (.lit 2)])
      [.ifThen (.var "i") [] none, .whileLoop (.lit 0) [.eval (.call "b" []) none] none] none,
    .assign (.word (.addr "text")) (.bin (.known .and) (.addr "i") (.lit 4294967295)) none]

theorem parse_print_sampler :
    sampler.WellFormed ∧
      sampler.print = "data\ntext:\n\"say \\\"hi\\\"\\n\"\n7\nword 260\nend\n" ++
        "fun b(x, y) preserve\nif (x < 3)\nb[[y]] -> b[&b]\nelse\ngoto b\nend\nb:\nend\n" ++
        "for i from 0 to b(1, (b << 2))\nif i\nend\nwhile 0\nb()\nend\nend\n" ++
        "(&i & 4294967295) -> [&text]\n" ∧
      ∃ s, parse "sampler" sampler.print = .ok s ∧ s.unlocated = sampler.unlocated := by
  have hwf : sampler.WellFormed := by
    refine ⟨?_, by decide +kernel⟩
    simp only [sampler, List.forall_mem_cons, DataItem.WellFormed]
    exact ⟨by decide +kernel, .inr (.inr ⟨_, rfl⟩), .inl rfl, .inr (.inl rfl), nofun⟩
  refine ⟨hwf, by decide +kernel, parse_print sampler hwf "sampler"⟩

end Source

end BrownLang
