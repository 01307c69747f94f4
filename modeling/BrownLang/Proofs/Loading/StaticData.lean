import BrownLang.Proofs.Loading.Redefinition
import BrownLang.Proofs.Memory.Accesses
import BrownLang.Proofs.Syntax.Parts

/-!
# Data as it is written and as it is read

What is declared in the data section of a file is in memory when the program
starts, one declaration after the other.  A label gives the place of what is
declared after it, and is a variable whose word begins there.
-/

namespace BrownLang

def DataItem.content : DataItem → List UInt8
  | label _ => []
  | bytes bs => bs

/-! ## Declarations -/

inductive Declaration where
  | label (x : String)
  | text (s : String)
  | byte (n : Nat)
  | word (n : Nat)

namespace Declaration

def lexemes : Declaration → List Lexeme
  | label x => [.name x, .punct .colon]
  | text s => [.string s]
  | byte n => [.number n]
  | word n => [.keyword .kwWord, .number n]

/-- A text is encoded in UTF-8, a word with its highest byte first. -/
def bytes : Declaration → List UInt8
  | label _ => []
  | text s => s.toUTF8.data.toList
  | byte n => [UInt8.ofNat n]
  | word n => [n / 0x1000000, n / 0x10000, n / 0x100, n].map UInt8.ofNat

def allBytes (ds : List Declaration) : List UInt8 := ds.flatMap bytes

def InRange : Declaration → Prop
  | byte n => n < 0x100
  | word n => n < Word.count
  | label _ | text _ => True

/-- The lexemes hold these declarations, with line ends between them. -/
inductive Listed : List Lexeme → List Declaration → Prop
  | nil : Listed [] []
  | newline {ls ds} : Listed ls ds → Listed (.newline :: ls) ds
  | cons {ls ds} (d) : Listed ls ds → Listed (d.lexemes ++ ls) (d :: ds)

/-- A file of these lexemes has these declarations in its data section, if it has one at all. -/
inductive Opens : List Lexeme → List Declaration → Prop
  | newline {ls ds} : Opens ls ds → Opens (.newline :: ls) ds
  | code {ls} : (∀ l ∈ ls.head?, l ≠ .newline ∧ l ≠ .keyword .kwData) → Opens ls []
  | data {ls rest ds} : Listed ls ds →
      Opens (.keyword .kwData :: ls ++ .keyword .kwEnd :: rest) ds

def item : Declaration → DataItem
  | label x => .label x
  | text s => .bytes (text s).bytes
  | byte n => .bytes (byte n).bytes
  | word n => .bytes (word n).bytes

theorem content_item (d : Declaration) : d.item.content = d.bytes := by
  cases d <;> rfl

theorem label?_item (d : Declaration) (x : String) :
    d.item.label? = some x ↔ d = .label x := by
  cases d <;> simp [item, DataItem.label?]

theorem flatMap_content (ds : List Declaration) :
    (ds.map item).flatMap DataItem.content = allBytes ds := by
  simp only [List.flatMap_map, content_item, allBytes]

theorem bytes_word (n : Nat) : (word n).bytes = Word.bytes n := by
  simp [bytes, Word.bytes, Word.byte, Nat.shiftRight_eq_div_pow]

theorem exists_of_says {ls : List Lexeme} {i : DataItem} (h : i.Says ls) :
    ∃ d : Declaration, d.lexemes = ls ∧ d.item = i ∧ d.InRange := by
  cases h with
  | @label x _ => exact ⟨label x, rfl, rfl, trivial⟩
  | @string s => exact ⟨text s, rfl, rfl, trivial⟩
  | @byte n b hb =>
      subst hb
      exact ⟨byte b.toNat, rfl, by simp [item, bytes], b.toNat_lt⟩
  | @word n a b c d hn =>
      subst hn
      refine ⟨word (Word.ofBytes a b c d), rfl, ?_, Word.ofBytes_lt a b c d⟩
      rw [item, bytes_word, Word.bytes_ofBytes]

theorem exists_of_saysAll {ls : List Lexeme} {items : List DataItem}
    (h : DataItem.SaysAll ls items) :
    ∃ ds, Listed ls ds ∧ ds.map item = items ∧ ∀ d ∈ ds, d.InRange := by
  induction h with
  | none => exact ⟨[], .nil, rfl, nofun⟩
  | newline _ ih =>
      obtain ⟨ds, hds, hitems, hrange⟩ := ih
      exact ⟨ds, .newline hds, hitems, hrange⟩
  | item hsays _ ih =>
      obtain ⟨d, rfl, rfl, hd⟩ := exists_of_says hsays
      obtain ⟨ds, hds, rfl, hrange⟩ := ih
      exact ⟨d :: ds, .cons d hds, rfl, by simpa using ⟨hd, hrange⟩⟩

theorem Listed.unique {ls ls' rest rest' : List Lexeme} {ds ds' : List Declaration}
    (h : Listed ls ds) (h' : Listed ls' ds')
    (heq : ls ++ .keyword .kwEnd :: rest = ls' ++ .keyword .kwEnd :: rest') : ds = ds' := by
  induction h generalizing ls' ds' with
  | nil =>
      cases h' with
      | nil => rfl
      | newline => simp at heq
      | cons d => cases d <;> simp [lexemes] at heq
  | newline _ ih =>
      cases h' with
      | nil => simp at heq
      | newline h' => exact ih h' (by simpa using heq)
      | cons d => cases d <;> simp [lexemes] at heq
  | cons d _ ih =>
      cases h' with
      | nil => cases d <;> simp [lexemes] at heq
      | newline => cases d <;> simp [lexemes] at heq
      | cons d' h' =>
          have hsame : d = d' := by cases d <;> cases d' <;> simp_all [lexemes]
          subst hsame
          rw [ih h' (by simpa using heq)]

theorem Opens.unique {ls : List Lexeme} {ds ds' : List Declaration} (h : Opens ls ds)
    (h' : Opens ls ds') : ds = ds' := by
  induction h with
  | newline _ ih =>
      cases h' with
      | newline h' => exact ih h'
      | code hcode => simp at hcode
  | code hcode =>
      cases h' with
      | newline => simp at hcode
      | code => rfl
      | data => simp at hcode
  | data hlisted =>
      generalize hls : Lexeme.keyword .kwData :: _ ++ Lexeme.keyword .kwEnd :: _ = all at h'
      cases h' with
      | newline => simp at hls
      | code hcode => simp [← hls] at hcode
      | data hlisted' => exact hlisted.unique hlisted' (by simpa using hls)

theorem Opens.skip {before ls : List Lexeme} {ds : List Declaration}
    (hbefore : ∀ l ∈ before, l = .newline) (h : Opens ls ds) : Opens (before ++ ls) ds := by
  induction before with
  | nil => exact h
  | cons l before ih =>
      obtain ⟨rfl, hrest⟩ := List.forall_mem_cons.mp hbefore
      exact .newline (ih hrest)

end Declaration

open Declaration

/-! ## From the text to the items -/

namespace Source

variable {ts rest : List Token} {items : List DataItem}

theorem opens_of_readData (h : readData ts = .ok (items, rest)) (hts : Token.Named ts)
    (hhead : ∀ t ∈ ts.head?, t.lexeme ≠ .newline) :
    ∃ ds, Opens (ts.map Token.lexeme) ds ∧ ds.map item = items ∧ ∀ d ∈ ds, d.InRange := by
  unfold readData at h
  split at h
  next p us =>
    obtain ⟨⟨items', r⟩, hread, h⟩ := Reader.bind_eq_ok.mp h
    obtain ⟨_, -, h⟩ := Reader.bind_eq_ok.mp h
    cases h
    obtain ⟨ls, hls, hlexemes⟩ := DataItem.saysAll_of_readAll hread hts.tail
    obtain ⟨ds, hds, hmore⟩ := exists_of_saysAll hls
    refine ⟨ds, ?_, hmore⟩
    rw [List.map_cons, hlexemes]
    exact .data hds
  next hdata =>
    cases h
    refine ⟨[], .code ?_, rfl, nofun⟩
    cases ts with
    | nil => nofun
    | cons t us =>
        obtain ⟨l, p⟩ := t
        rintro _ ⟨rfl⟩
        constructor
        · exact hhead ⟨l, p⟩ rfl
        · rintro rfl
          exact hdata p us rfl

theorem exists_of_readData
    (h : readData (ts.dropWhile (·.lexeme = .newline)) = .ok (items, rest))
    (hts : Token.Named ts) :
    ∃ ds, Opens (ts.map Token.lexeme) ds ∧ ds.map item = items ∧ ∀ d ∈ ds, d.InRange := by
  have hlines : ∀ l ∈ (ts.takeWhile (·.lexeme = .newline)).map Token.lexeme, l = .newline := by
    intro l hl
    obtain ⟨t, ht, rfl⟩ := List.mem_map.mp hl
    simpa using List.mem_takeWhile_imp ht
  have hhead : ∀ t ∈ (ts.dropWhile (·.lexeme = .newline)).head?, t.lexeme ≠ .newline := by
    intro t ht
    have hstop := List.head?_dropWhile_not (fun t : Token => decide (t.lexeme = .newline)) ts
    rw [ht] at hstop
    simpa using hstop
  obtain ⟨ds, hds, hmore⟩ := opens_of_readData h
    (fun t ht => hts t ((List.dropWhile_sublist _).subset ht)) hhead
  have hall := hds.skip hlines
  rw [← List.map_append, List.takeWhile_append_dropWhile] at hall
  exact ⟨ds, hall, hmore⟩

theorem exists_of_parse {file text : String} {src : Source} (h : parse file text = .ok src) :
    ∃ ts last ds, Token.scan text = .ok (ts, last) ∧ Opens (ts.map Token.lexeme) ds ∧
      ds.map item = src.data ∧ ∀ d ∈ ds, d.InRange := by
  obtain ⟨⟨ts, last⟩, hscan, h⟩ := Reader.bind_eq_ok.mp h
  dsimp only at h
  split at h
  next hread =>
    cases h
    obtain ⟨⟨items, r⟩, hdata, hread⟩ := Reader.bind_eq_ok.mp hread
    obtain ⟨⟨code, rest⟩, -, hread⟩ := Reader.bind_eq_ok.mp hread
    cases hread
    obtain ⟨ds, hds⟩ := exists_of_readData hdata (Token.named_of_scanFrom hscan)
    exact ⟨ts, last, ds, hscan, hds⟩
  next => cases h

end Source

/-! ## From the items to the program -/

namespace DataSegment

variable {items : List DataItem} {size : Nat} {seen : Table} {d : DataSegment}

theorem bytes_ofItemsAfter (h : ofItemsAfter size seen items = .ok d) :
    d.bytes = items.flatMap DataItem.content := by
  induction items generalizing size seen d with
  | nil =>
      cases h
      rfl
  | cons item rest ih =>
      cases item with
      | label x =>
          obtain ⟨-, d', hrest, rfl⟩ := ofItemsAfter_label h
          simpa [DataItem.content] using ih hrest
      | bytes bs =>
          obtain ⟨d', hrest, rfl⟩ := ofItemsAfter_bytes h
          simpa [DataItem.content] using ih hrest

theorem names_ofItemsAfter (h : ofItemsAfter size seen items = .ok d) :
    d.labels.map Prod.fst = items.filterMap DataItem.label? := by
  induction items generalizing size seen d with
  | nil =>
      cases h
      rfl
  | cons item rest ih =>
      cases item with
      | label x =>
          obtain ⟨-, d', hrest, rfl⟩ := ofItemsAfter_label h
          rw [List.filterMap_cons_some (f := DataItem.label?) rfl, ← ih hrest]
          rfl
      | bytes bs =>
          obtain ⟨d', hrest, rfl⟩ := ofItemsAfter_bytes h
          rw [List.filterMap_cons_none rfl, ← ih hrest]

theorem lookup_ofItemsAfter {before after : List DataItem} {x : String}
    (h : ofItemsAfter size seen (before ++ .label x :: after) = .ok d) :
    d.labels.lookup x = some (size + (before.flatMap DataItem.content).length) := by
  induction before generalizing size seen d with
  | nil =>
      obtain ⟨-, d', -, rfl⟩ := ofItemsAfter_label h
      simp
  | cons item before ih =>
      cases item with
      | bytes bs =>
          obtain ⟨d', hrest, rfl⟩ := ofItemsAfter_bytes h
          rw [ih hrest]
          simp [DataItem.content, Nat.add_assoc]
      | label y =>
          obtain ⟨-, d', hrest, rfl⟩ := ofItemsAfter_label h
          have hx := ih hrest
          -- The label is not defined twice.
          have hmem : x ∈ d'.labels.map Prod.fst := isSome_lookup_iff.mp (by simp [hx])
          have hnew := (nodup_of_ofItemsAfter hrest).2 x hmem
          have hne : x ≠ y := by
            rintro rfl
            simp at hnew
          rw [List.lookup_cons, beq_false_of_ne hne, hx]
          simp [DataItem.content]

end DataSegment

namespace Program

variable {src : Source} {p : Program} {ds : List Declaration}

theorem data_eq (hload : ofSource src = .ok p) (hds : ds.map item = src.data) :
    p.data = allBytes ds := by
  obtain ⟨d, hd, -, -, hdata, -⟩ := ofSource_ok hload
  rw [hdata, DataSegment.bytes_ofItemsAfter hd, ← hds, flatMap_content]

theorem isSome_lookup_dataLabels_iff (hload : ofSource src = .ok p)
    (hds : ds.map item = src.data) (x : String) :
    (p.dataLabels.lookup x).isSome ↔ .label x ∈ ds := by
  obtain ⟨d, hd, -, -, -, hlabels⟩ := ofSource_ok hload
  rw [isSome_lookup_iff, hlabels, DataSegment.names_ofItemsAfter hd, ← hds]
  simp [label?_item]

theorem label_splits_data (hload : ofSource src = .ok p) {before after : List Declaration}
    {x : String} (hds : (before ++ .label x :: after).map item = src.data) :
    p.dataLabels.lookup x = some (allBytes before).length ∧
      p.data = allBytes before ++ allBytes after := by
  constructor
  · obtain ⟨d, hd, -, -, -, hlabels⟩ := ofSource_ok hload
    rw [← hds, List.map_append, List.map_cons] at hd
    rw [hlabels, DataSegment.lookup_ofItemsAfter hd, flatMap_content, Nat.zero_add]
  · rw [data_eq hload hds]
    simp [allBytes, bytes]

end Program

/-! ## From the program to memory -/

namespace Memory

theorem byteAt_ofList {bs : List UInt8} {i : Nat} {b : UInt8} (h : bs[i]? = some b) :
    i < (ofList bs).size ∧ (ofList bs).byteAt i = b := by
  obtain ⟨hi, rfl⟩ := List.getElem?_eq_some_iff.mp h
  constructor
  · simpa [ofList, size] using hi
  · simp [ofList, byteAt, hi]

theorem wordAt_ofList (front back : List UInt8) {v : Nat} (hv : v < Word.count) :
    front.length + 4 ≤ (ofList (front ++ (Word.bytes v ++ back))).size ∧
      (ofList (front ++ (Word.bytes v ++ back))).wordAt front.length = v := by
  have hbyte (k : Nat) (hk : k < 4) :
      (front ++ (Word.bytes v ++ back))[front.length + k]? = some (Word.byte v k) := by
    rw [List.getElem?_append_right (Nat.le_add_right _ _), Nat.add_sub_cancel_left]
    obtain rfl | rfl | rfl | rfl : k = 0 ∨ k = 1 ∨ k = 2 ∨ k = 3 := by omega
    all_goals rfl
  have h₀ := byteAt_ofList (hbyte 0 (by omega))
  have h₁ := byteAt_ofList (hbyte 1 (by omega))
  have h₂ := byteAt_ofList (hbyte 2 (by omega))
  have h₃ := byteAt_ofList (hbyte 3 (by omega))
  constructor
  · omega
  · rw [Nat.add_zero] at h₀
    rw [wordAt, h₀.2, h₁.2, h₂.2, h₃.2, Word.ofBytes_bytes hv]

end Memory

namespace State

variable {s : State} {x : String} {front back : List UInt8} (call : Caller)

theorem eval_byte_of_lookup (hx : s.vars.lookup x = some front.length)
    (hmem : s.memory = .ofList (front ++ back)) (hsmall : (front ++ back).length < Word.count)
    {i : Nat} {b : UInt8} (hb : back[i]? = some b) :
    (Expr.byte (.bin (.known .add) (.addr x) (.lit i))).eval call s = .ok b.toNat s := by
  have hat : (front ++ back)[front.length + i]? = some b := by
    rwa [List.getElem?_append_right (Nat.le_add_right _ _), Nat.add_sub_cancel_left]
  obtain ⟨hin, hbyte⟩ := Memory.byteAt_ofList hat
  rw [← hmem] at hin hbyte
  have hlt : front.length + i < Word.count :=
    (List.getElem?_eq_some_iff.mp hat).1.trans hsmall
  have hsum : (Expr.bin (.known .add) (.addr x) (.lit i)).eval call s =
      .ok (front.length + i) s := by
    have haddr : (Expr.addr x).eval call s = .ok front.length s := Exec.addressOf_of_some hx
    rw [Expr.eval, Exec.bind_of_ok haddr]
    exact congrArg (EStateM.Result.ok · s) (Word.ofInt_natCast hlt)
  rw [Expr.eval, Exec.bind_of_ok hsum, Exec.readByte_eq, Memory.readByte_eq, if_pos hin, hbyte]
  rfl

theorem eval_var_of_lookup (hx : s.vars.lookup x = some front.length) {v : Nat}
    (hv : v < Word.count) (hmem : s.memory = .ofList (front ++ (Word.bytes v ++ back))) :
    (Expr.var x).eval call s = .ok v s := by
  obtain ⟨hin, hword⟩ := Memory.wordAt_ofList front back hv
  rw [← hmem] at hin hword
  rw [Expr.eval, Exec.readVar_of_lookup hx hin, hword]

end State

namespace Program

variable {src : Source} {p : Program}

/--
A file is compiled.  Its data is what its data section declares, in order, and
every data label that is declared has its place there and is a variable.  In
the state before the first instruction its address is this place, and to take
it changes nothing; the bytes from there on are those that are declared after
the label; and if a word is the first of these that has any bytes, then this is
the value of the variable.
-/
theorem data_reaches_memory {file text : String} (hparse : Source.parse file text = .ok src)
    (hload : ofSource src = .ok p) (hsmall : p.data.length < Word.count) :
    ∃ ts last ds, Token.scan text = .ok (ts, last) ∧ Opens (ts.map Token.lexeme) ds ∧
      (∀ d ∈ ds, d.InRange) ∧ p.data = allBytes ds ∧
      (∀ x, (p.dataLabels.lookup x).isSome ↔ .label x ∈ ds) ∧
      ∀ before x after, ds = before ++ .label x :: after →
        p.dataLabels.lookup x = some (allBytes before).length ∧
        ∀ options canvas generator call,
          let s := (Machine.mk p options).start canvas generator
          (Expr.addr x).eval call s = .ok (allBytes before).length s ∧
          (∀ i b, (allBytes after)[i]? = some b →
            (Expr.byte (.bin (.known .add) (.addr x) (.lit i))).eval call s = .ok b.toNat s) ∧
          ∀ empty v rest, after = empty ++ .word v :: rest → allBytes empty = [] →
            (Expr.var x).eval call s = .ok v s := by
  obtain ⟨ts, last, ds, hscan, hopens, hitems, hrange⟩ := Source.exists_of_parse hparse
  refine ⟨ts, last, ds, hscan, hopens, hrange, data_eq hload hitems,
    isSome_lookup_dataLabels_iff hload hitems, fun before x after hsplit => ?_⟩
  subst hsplit
  obtain ⟨hlookup, hdata⟩ := label_splits_data hload hitems
  refine ⟨hlookup, fun options canvas generator call => ?_⟩
  intro s
  have hmem : s.memory = .ofList (allBytes before ++ allBytes after) :=
    congrArg Memory.ofList hdata
  refine ⟨Exec.addressOf_of_some hlookup, ?_, ?_⟩
  · intro i b hb
    rw [hdata] at hsmall
    exact State.eval_byte_of_lookup call hlookup hmem hsmall hb
  · intro empty v rest hafter hempty
    have hv : v < Word.count := hrange (.word v) (by simp [hafter])
    have hbytes : allBytes after = Word.bytes v ++ allBytes rest := by
      rw [allBytes] at hempty
      simp [hafter, allBytes, hempty, bytes_word]
    rw [hbytes] at hmem
    exact State.eval_var_of_lookup call hlookup hv hmem

def almanac : Source where
  data := [.label "a", .label "b", .bytes [], .bytes [0, 0, 1, 2], .label "c",
    .bytes [0xC3, 0xA9, 10], .bytes [65], .bytes [255]]
  code := []

def almanac.program : Program where
  code := #[]
  data := [0, 0, 1, 2, 0xC3, 0xA9, 10, 65, 255]
  labels := []
  dataLabels := [("a", 0), ("b", 0), ("c", 4)]

def almanac.declared : List Declaration :=
  [.label "a", .label "b", .text "", .word 258, .label "c", .text "é\n", .byte 65, .byte 255]

def almanac.tokens : List Token :=
  [⟨.keyword .kwData, ⟨1, 1⟩⟩, ⟨.newline, ⟨1, 5⟩⟩,
    ⟨.name "a", ⟨2, 1⟩⟩, ⟨.punct .colon, ⟨2, 2⟩⟩, ⟨.name "b", ⟨2, 4⟩⟩, ⟨.punct .colon, ⟨2, 5⟩⟩,
    ⟨.string "", ⟨2, 7⟩⟩, ⟨.keyword .kwWord, ⟨2, 10⟩⟩, ⟨.number 258, ⟨2, 15⟩⟩, ⟨.newline, ⟨2, 20⟩⟩,
    ⟨.name "c", ⟨3, 1⟩⟩, ⟨.punct .colon, ⟨3, 2⟩⟩, ⟨.string "é\n", ⟨3, 4⟩⟩, ⟨.number 65, ⟨3, 10⟩⟩,
    ⟨.number 255, ⟨3, 14⟩⟩, ⟨.newline, ⟨3, 17⟩⟩, ⟨.keyword .kwEnd, ⟨4, 1⟩⟩]

theorem almanac.read (o : Origin) : Source.read o almanac.tokens = .ok almanac := by
  have hdata : Source.readData (almanac.tokens.dropWhile (·.lexeme = .newline)) =
      .ok (almanac.data, []) := by rfl
  have hcode : Stmt.readBlock o .file [] = .ok ([], .all []) := by
    rw [Stmt.readBlock]
    rfl
  simp [Source.read, hdata, hcode, bind, Except.bind, pure, Except.pure, almanac]

theorem almanac_in_memory :
    let text := "data\na: b: \"\" word 0x102\nc: \"é\\n\" 'A' 255\nend"
    Source.parse "almanac" text = .ok almanac ∧ ofSource almanac = .ok almanac.program ∧
    almanac.program.data.length < Word.count ∧
    ∀ options canvas generator call,
      let s := (Machine.mk almanac.program options).start canvas generator
      (Expr.addr "c").eval call s = .ok 4 s ∧
      (Expr.byte (.bin (.known .add) (.addr "c") (.lit 1))).eval call s = .ok 0xA9 s ∧
      (Expr.var "a").eval call s = .ok 258 s := by
  intro text
  have hscan : Token.scan text = .ok (almanac.tokens, ⟨4, 4⟩) := by
    dsimp only [text]
    cbv
  have hparse : Source.parse "almanac" text = .ok almanac := by
    simp [Source.parse, hscan, almanac.read, bind, Except.bind]
  have hload : ofSource almanac = .ok almanac.program := by rfl
  have hsmall : almanac.program.data.length < Word.count := by decide
  obtain ⟨ts, last, ds, hscan', hopens, -, -, -, hlabel⟩ :=
    data_reaches_memory hparse hload hsmall
  cases hscan.symm.trans hscan'
  have hlisted : Listed _ almanac.declared :=
    .newline (.cons _ (.cons _ (.cons _ (.cons _ (.newline (.cons _ (.cons _ (.cons _
      (.cons _ (.newline .nil))))))))))
  cases hopens.unique (.data hlisted)
  refine ⟨hparse, hload, hsmall, fun options canvas generator call => ?_⟩
  obtain ⟨-, hc⟩ := hlabel [.label "a", .label "b", .text "", .word 258] "c" _ rfl
  obtain ⟨-, ha⟩ := hlabel [] "a" _ rfl
  obtain ⟨haddr, hbyte, -⟩ := hc options canvas generator call
  obtain ⟨-, -, hword⟩ := ha options canvas generator call
  exact ⟨haddr, hbyte 1 0xA9 rfl, hword [.label "b", .text ""] 258 _ rfl rfl⟩

end Program

end BrownLang
