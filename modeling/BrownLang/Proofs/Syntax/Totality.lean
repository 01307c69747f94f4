import BrownLang.Proofs.Syntax.Failures
import BrownLang.Proofs.Syntax.Literals

/-!
# Reading ends on every text

The readers have loops: the statements of a block, the operators of an
expression, arguments, parameters, data items, and the line ends before the
data section.  `Loop.turn` is one turn of a loop.  A loop is its turn and then,
unless it stops or fails, the loop again where fewer tokens are left.  With the
pieces that the scanner cuts off this says of every text that reading comes to
an end, and that a failure is at a place in the text or is the host's, on a
number of too many digits.
-/

namespace BrownLang

namespace Reader

/-! ## The loops of the readers -/

/-- A loop, with what it has found so far as far as that decides what it does next. -/
inductive Loop where
  | lines
  | block (o : Origin) (ending : Stmt.Ending)
  | operators (min : Nat) (l : Expr)
  | arguments
  | params (before : List String)
  | items

inductive Turn where
  | stop (rest : List Token)
  | again (loop : Loop) (rest : List Token)

namespace Loop

def run : Loop → List Token → Except ReadFailure (List Token)
  | lines, ts => .ok (ts.dropWhile (·.lexeme = .newline))
  | block o ending, ts => do
    let (_, r) ← Stmt.readBlock o ending ts
    return r.1
  | operators min l, ts => do
    let (_, r) ← Expr.climb min l ts
    return r.1
  | arguments, ts => do
    let (_, r) ← Expr.arguments ts
    return r.1
  | params before, ts => do
    let (_, r) ← Stmt.paramsFrom before ts
    return r.1
  | items, ts => do
    let (_, r) ← DataItem.readAll ts
    return r

def lineTurn : List Token → Except ReadFailure Turn
  | ⟨.newline, _⟩ :: rest => .ok (.again lines rest)
  | ts => .ok (.stop ts)

def blockTurn (o : Origin) (ending : Stmt.Ending) : List Token → Except ReadFailure Turn
  | [] => if ending = .file then .ok (.stop []) else failAt [] .missingEnd
  | t :: rest =>
    if ending.stopsAt t.lexeme.kind then .ok (.stop (t :: rest))
    else if t.lexeme = .newline then .ok (.again (block o ending) rest)
    else do
      let (_, r) ← Stmt.read o (t :: rest)
      Stmt.lineEnd ending r.1
      return .again (block o ending) r.1

def operatorTurn (min : Nat) (l : Expr) : List Token → Except ReadFailure Turn
  | ⟨.operator o, p⟩ :: rest =>
    if min ≤ o.level then do
      let (e, r) ← Expr.binary (o.level + 1) rest
      return .again (operators min (.bin (.known o) l e)) r.1
    else .ok (.stop (⟨.operator o, p⟩ :: rest))
  | ts => .ok (.stop ts)

def argumentTurn (ts : List Token) : Except ReadFailure Turn := do
  let (_, r) ← Expr.binary 0 ts
  match r.1 with
  | ⟨.punct .comma, _⟩ :: rest => return .again arguments rest
  | rest => return .stop rest

def paramTurn (before : List String) : List Token → Except ReadFailure Turn
  | ⟨.name x, p⟩ :: rest =>
    if x ∈ before then .error ⟨.duplicateParameter x, some p⟩
    else
      match rest with
      | ⟨.punct .comma, _⟩ :: more => .ok (.again (params (before ++ [x])) more)
      | rest => do
        let r ← expect (.punct .rparen) rest
        return .stop r.1
  | ts => failAt ts (.expected .name (kindAt ts))

def itemTurn : List Token → Except ReadFailure Turn
  | ⟨.keyword .kwEnd, _⟩ :: rest => .ok (.stop rest)
  | ⟨.newline, _⟩ :: rest => .ok (.again items rest)
  | ⟨.name _, _⟩ :: ⟨.punct .colon, _⟩ :: rest => .ok (.again items rest)
  | ⟨.string _, _⟩ :: rest => .ok (.again items rest)
  | ⟨.number n, p⟩ :: rest =>
    if n < 256 then .ok (.again items rest) else .error ⟨.byteTooLarge n, some p⟩
  | ⟨.keyword .kwWord, _⟩ :: ⟨.number n, p⟩ :: rest =>
    if n < Word.count then .ok (.again items rest) else .error ⟨.numberTooLarge n, some p⟩
  | ⟨.keyword .kwWord, _⟩ :: rest => failAt rest (.expected .number (kindAt rest))
  | ts => failAt ts (.unexpectedInData (kindAt ts))

def turn : Loop → List Token → Except ReadFailure Turn
  | lines => lineTurn
  | block o ending => blockTurn o ending
  | operators min l => operatorTurn min l
  | arguments => argumentTurn
  | params before => paramTurn before
  | items => itemTurn

end Loop

def Turn.run : Turn → Except ReadFailure (List Token)
  | stop rest => .ok rest
  | again loop rest => loop.run rest

namespace Loop

theorem run_lines (ts : List Token) : lines.run ts = lineTurn ts >>= Turn.run := by
  fun_cases lineTurn ts with
  | case1 => rfl
  | case2 ts hne =>
      cases ts with
      | nil => rfl
      | cons t rest =>
          obtain ⟨l, p⟩ := t
          have hl : l ≠ .newline := by
            rintro rfl
            exact hne p rest rfl
          rw [run, List.dropWhile_cons_of_neg (by simpa using hl)]
          rfl

theorem run_block (o : Origin) (ending : Stmt.Ending) (ts : List Token) :
    (block o ending).run ts = blockTurn o ending ts >>= Turn.run := by
  fun_cases blockTurn o ending ts with
  | case1 h => rw [run, Stmt.readBlock, if_pos h]; rfl
  | case2 h => rw [run, Stmt.readBlock, if_neg h]; rfl
  | case3 t rest hstop => rw [run, Stmt.readBlock, if_pos hstop]; rfl
  | case4 t rest hstop hline =>
      rw [run, Stmt.readBlock, if_neg hstop, if_pos hline, bind_assoc]
      rfl
  | case5 t rest hstop hline =>
      rw [run, Stmt.readBlock, if_neg hstop, if_neg hline]
      simp only [bind_assoc]
      rfl

theorem run_operators (min : Nat) (l : Expr) (ts : List Token) :
    (operators min l).run ts = operatorTurn min l ts >>= Turn.run := by
  fun_cases operatorTurn min l ts with
  | case1 o p rest hmin =>
      rw [run, Expr.climb, if_pos hmin]
      simp only [bind_assoc]
      rfl
  | case2 o p rest hmin =>
      rw [run, Expr.climb, if_neg hmin]
      rfl
  | case3 ts hne =>
      rw [run, Expr.climb]
      · rfl
      · exact hne

theorem run_arguments (ts : List Token) :
    arguments.run ts = argumentTurn ts >>= Turn.run := by
  rw [run, argumentTurn, Expr.arguments]
  simp only [bind_assoc]
  refine bind_congr fun ⟨e, r, hr⟩ => ?_
  dsimp only
  split
  next =>
    simp only [bind_assoc]
    rfl
  next hne =>
    split
    next p rest => exact absurd HEq.rfl (hne _ _ hr rfl)
    next => rfl

theorem run_params (before : List String) (ts : List Token) :
    (params before).run ts = paramTurn before ts >>= Turn.run := by
  fun_cases paramTurn before ts with
  | case1 x p rest hx =>
      rw [run, Stmt.paramsFrom_duplicate hx]
      rfl
  | case2 x p hx q more =>
      rw [run, Stmt.paramsFrom_comma, if_neg hx, bind_assoc]
      rfl
  | case3 x p hx rest hne =>
      rw [run, Stmt.paramsFrom_last before x p hne, if_neg hx,
        bind_assoc, bind_assoc]
      rfl
  | case4 ts hne =>
      rw [run, Stmt.paramsFrom_no_name before hne]
      rfl

theorem run_items (ts : List Token) : items.run ts = itemTurn ts >>= Turn.run := by
  fun_cases itemTurn ts with
  | case1 => rw [run, DataItem.readAll]; rfl
  | case2 => rw [run, DataItem.readAll]; rfl
  | case3 | case4 =>
      rw [run, DataItem.readAll, bind_assoc]
      rfl
  | case5 n p rest hn | case7 p n q rest hn =>
      rw [run, DataItem.readAll, if_pos hn, bind_assoc]
      rfl
  | case6 n p rest hn | case8 p n q rest hn =>
      rw [run, DataItem.readAll, if_neg hn]
      rfl
  | case9 p rest hne =>
      rw [run, DataItem.readAll]
      · rfl
      · exact hne
  | case10 =>
      rw [run, DataItem.readAll]
      · rfl
      all_goals assumption

theorem run_eq (a : Loop) (ts : List Token) : a.run ts = a.turn ts >>= Turn.run := by
  cases a with
  | lines => exact run_lines ts
  | block o ending => exact run_block o ending ts
  | operators min l => exact run_operators min l ts
  | arguments => exact run_arguments ts
  | params before => exact run_params before ts
  | items => exact run_items ts

end Loop

/-- So many turns of a loop, unless it stops or fails before. -/
def Loop.turns : Nat → Loop → List Token → Except ReadFailure Turn
  | 0, a, ts => .ok (.again a ts)
  | n + 1, a, ts => do
    match ← a.turn ts with
    | .stop rest => return .stop rest
    | .again b rest => turns n b rest

def Turn.Advances (ts : List Token) : Turn → Prop
  | stop rest => rest <:+ ts
  | again _ rest => rest <:+ ts ∧ rest.length < ts.length

theorem Turn.Advances.again {a : Loop} {t : Token} {ts rest : List Token} (h : rest <:+ ts) :
    Advances (t :: ts) (again a rest) :=
  ⟨h.trans (List.suffix_cons t ts), Nat.lt_succ_of_le h.length_le⟩

/-- A turn advances, or it fails at one of the tokens or at their end. -/
def Loop.Progresses (ts : List Token) (x : Except ReadFailure Turn) : Prop :=
  FailsAt ts x ∧ ∀ u, x = .ok u → u.Advances ts

namespace Loop

theorem Progresses.ok {ts : List Token} {u : Turn} (h : u.Advances ts) : Progresses ts (.ok u) :=
  ⟨.ok u, fun _ hu => by cases hu; exact h⟩

theorem Progresses.error {ts : List Token} {e : ReadFailure}
    (h : FailsAt ts (.error e : Except ReadFailure Turn)) : Progresses ts (.error e) :=
  ⟨h, nofun⟩

theorem Progresses.bind {α : Type} {ts : List Token} {x : Except ReadFailure α}
    {f : α → Except ReadFailure Turn} (hx : FailsAt ts x)
    (hf : ∀ a, x = .ok a → Progresses ts (f a)) : Progresses ts (x >>= f) := by
  refine ⟨hx.bind fun a ha => (hf a ha).1, fun u hu => ?_⟩
  obtain ⟨a, ha, hu⟩ := bind_eq_ok.mp hu
  exact (hf a ha).2 u hu

theorem progresses_lines (ts : List Token) : Progresses ts (lineTurn ts) := by
  fun_cases lineTurn ts with
  | case1 p rest => exact .ok (.again List.suffix_rfl)
  | case2 ts => exact .ok List.suffix_rfl

theorem progresses_block (o : Origin) (ending : Stmt.Ending) (ts : List Token) :
    Progresses ts (blockTurn o ending ts) := by
  fun_cases blockTurn o ending ts with
  | case1 => exact .ok List.suffix_rfl
  | case2 => exact .error (.front [] _)
  | case3 => exact .ok List.suffix_rfl
  | case4 => exact .ok (.again List.suffix_rfl)
  | case5 t rest =>
      refine .bind (Stmt.failsAt_read o _) ?_
      rintro ⟨s, r, hr⟩ hs
      have hsuffix := Stmt.suffix_of_read ⟨hr, hs⟩
      refine .bind ((Stmt.failsAt_lineEnd ending r).mono hsuffix) fun _ _ => ?_
      exact .ok ⟨hsuffix, hr⟩

theorem progresses_operators (min : Nat) (l : Expr) (ts : List Token) :
    Progresses ts (operatorTurn min l ts) := by
  fun_cases operatorTurn min l ts with
  | case1 o p rest =>
      refine .bind (Expr.failsAt_binary _ rest).tail ?_
      rintro ⟨e, r, hr⟩ he
      exact .ok (.again (Expr.suffix_of_binary ⟨hr, he⟩))
  | case2 => exact .ok List.suffix_rfl
  | case3 ts => exact .ok List.suffix_rfl

theorem progresses_arguments (ts : List Token) : Progresses ts (argumentTurn ts) := by
  unfold argumentTurn
  refine .bind (Expr.failsAt_binary 0 ts) ?_
  rintro ⟨e, r, hr⟩ he
  have hsuffix := Expr.suffix_of_binary ⟨hr, he⟩
  dsimp only
  split
  next => exact .ok ⟨(List.suffix_cons _ _).trans hsuffix, Nat.lt_of_succ_lt hr⟩
  next => exact .ok hsuffix

theorem progresses_params (before : List String) (ts : List Token) :
    Progresses ts (paramTurn before ts) := by
  fun_cases paramTurn before ts with
  | case1 => exact .error (.token List.mem_cons_self _)
  | case2 => exact .ok (.again (List.suffix_cons _ _))
  | case3 x p hx rest =>
      refine .bind (failsAt_expect _ rest).tail ?_
      rintro ⟨r, hr⟩ hclose
      exact .ok ((suffix_of_expect hclose).trans (List.suffix_cons _ _))
  | case4 ts => exact .error (.front ts _)

theorem progresses_items (ts : List Token) : Progresses ts (itemTurn ts) := by
  fun_cases itemTurn ts with
  | case1 => exact .ok (List.suffix_cons _ _)
  | case2 | case4 | case5 => exact .ok (.again List.suffix_rfl)
  | case3 | case7 => exact .ok (.again (List.suffix_cons _ _))
  | case6 => exact .error (.token List.mem_cons_self _)
  | case8 => exact .error (.token (List.mem_cons_of_mem _ List.mem_cons_self) _)
  | case9 p rest => exact .error (FailsAt.front rest _).tail
  | case10 ts => exact .error (.front ts _)

theorem progresses_turn (a : Loop) (ts : List Token) : Progresses ts (a.turn ts) := by
  cases a with
  | lines => exact progresses_lines ts
  | block o ending => exact progresses_block o ending ts
  | operators min l => exact progresses_operators min l ts
  | arguments => exact progresses_arguments ts
  | params before => exact progresses_params before ts
  | items => exact progresses_items ts

/-- A loop has ended after as many turns as there are tokens, and one more to see the end. -/
theorem turns_eq {n : Nat} (a : Loop) {ts : List Token} (hn : ts.length < n) :
    a.turns n ts = (a.run ts).map .stop := by
  induction n generalizing a ts with
  | zero => exact absurd hn (Nat.not_lt_zero _)
  | succ n ih =>
      rw [turns, run_eq]
      obtain ⟨-, hadvances⟩ := progresses_turn a ts
      cases hturn : a.turn ts with
      | error e => rfl
      | ok u =>
          cases u with
          | stop rest => rfl
          | again b rest =>
              have hlt := (hadvances _ hturn).2
              exact ih b (Nat.lt_of_lt_of_le hlt (Nat.le_of_lt_succ hn))

end Loop

end Reader

/-! ## Texts -/

theorem Position.ofOffset_take (cs : List Char) (i : Nat) :
    ofOffset cs i = start.past (cs.take i) := by
  rw [past_start, ofOffset, ofOffset, List.take_length]

namespace Token

/-- Scanning comes to a number that the host does not convert. -/
def ReachesOverlong (text : String) : Prop :=
  ∃ q ts cs rest, Cuts q (cs ++ rest) .start text.toList ts ∧ Overlong cs ∧ Delimited rest

theorem scan_error {text : String} {e : SyntaxError} (h : scan text = .error e) :
    (∃ cause i, i ≤ text.length ∧ e = .scan cause (.ofOffset text.toList i)) ∨
      e = .tooManyDigits ∧ ReachesOverlong text := by
  rcases cuts_of_scanFrom .start text.toList with
    ⟨_, _, hscan, -⟩ | ⟨ts, q, c, rest, r, hscan, hcuts, hpiece⟩
  · rw [scan, hscan] at h
    cases h
  · rw [scan, hscan] at h
    cases h
    cases r with
    | fault cause offset =>
        obtain ⟨front, htext, rfl⟩ := hcuts.split
        have hoffset : offset ≤ rest.length + 1 := within_of_piece hpiece
        refine .inl ⟨cause, front.length + offset, ?_, ?_⟩
        · rw [← String.length_toList, htext, List.length_append, List.length_cons]
          omega
        · rw [Position.ofOffset_take, htext, List.take_length_add_append, Position.past_append]
          rfl
    | tooManyDigits =>
        obtain ⟨more, rest, rfl, hover, hrest⟩ := overlong_of_piece hpiece
        exact .inr ⟨rfl, q, ts, c :: more, rest, hcuts, hover, hrest⟩

theorem offset_of_mem {text : String} {ts : List Token} {last : Position}
    (h : scan text = .ok (ts, last)) {t : Token} (ht : t ∈ ts) :
    ∃ i ≤ text.length, t.position = .ofOffset text.toList i := by
  obtain ⟨before, hposition, c, rest, more, htext, -⟩ := foundAfter_of_scanFrom h ht
  refine ⟨before.length, ?_, ?_⟩
  · rw [← String.length_toList, htext, List.length_append]
    omega
  · rw [hposition, htext, Position.ofOffset_append]

end Token

theorem Source.parse_error {file text : String} {e : SyntaxError}
    (h : parse file text = .error e) :
    (∃ cause i, i ≤ text.length ∧ e.report? = some (cause, .ofOffset text.toList i)) ∨
      e = .tooManyDigits ∧ Token.ReachesOverlong text := by
  rcases Reader.bind_eq_error.mp h with h | ⟨⟨ts, last⟩, hscan, h⟩
  · rcases Token.scan_error h with ⟨cause, i, hi, rfl⟩ | hover
    · exact .inl ⟨cause.message, i, hi, rfl⟩
    · exact .inr hover
  · dsimp only at h
    split at h
    next => cases h
    next e hread =>
      cases h
      left
      cases hposition : e.position with
      | none =>
          refine ⟨e.fault.message, text.length, Nat.le_refl _, ?_⟩
          rw [← Token.last_of_scan hscan]
          rfl
      | some p =>
          obtain ⟨t, ht, rfl⟩ := failsAt_read _ ts e hread p hposition
          obtain ⟨i, hi, hp⟩ := Token.offset_of_mem hscan ht
          refine ⟨e.fault.message, i, hi, ?_⟩
          rw [← hp]
          rfl

theorem Source.parse_of_reachesOverlong (file : String) {text : String}
    (h : Token.ReachesOverlong text) : parse file text = .error .tooManyDigits := by
  obtain ⟨q, ts, cs, rest, hcuts, hover, hrest⟩ := h
  rw [parse, Token.scan_of_overlong hcuts hover hrest]
  rfl

/--
Reading ends on every text.  The scanner takes one piece after the other, at
least a character each, up to the end of the text or to a piece that it refuses
within the text.  Each turn of a loop of the readers leaves fewer tokens, so that
the loop ends, and fails at a token or at the end of the tokens.  What comes out
is a source file, an error at an offset of the text, or the host's own error; and
that comes out if and only if scanning reaches an overlong number.
-/
theorem Source.parse_total (file text : String) :
    (∃ q left ts, Token.Cuts q left .start text.toList ts ∧
      (left = [] ∨ ∃ c rest r, left = c :: rest ∧ Token.piece c rest = .error r ∧
        r.Within left.length)) ∧
    (∀ (a : Reader.Loop) (ts : List Token), Reader.Loop.Progresses ts (a.turn ts) ∧
      a.turns (ts.length + 1) ts = (a.run ts).map .stop) ∧
    ((∃ src, parse file text = .ok src) ∨
      (∃ e cause i p, parse file text = .error e ∧ i ≤ text.length ∧
        p = Position.ofOffset text.toList i ∧ e.report? = some (cause, p) ∧
        e.message? file = some s!"{cause} at {file}:{p.line}:{p.column}") ∨
      parse file text = .error .tooManyDigits) ∧
    (parse file text = .error .tooManyDigits ↔ Token.ReachesOverlong text) := by
  refine ⟨?_, fun a ts => ⟨a.progresses_turn ts, a.turns_eq (Nat.lt_succ_self _)⟩, ?_, ?_⟩
  · rcases Token.cuts_of_scanFrom .start text.toList with
      ⟨ts, last, -, hcuts⟩ | ⟨ts, q, c, rest, r, -, hcuts, hpiece⟩
    · exact ⟨last, [], ts, hcuts, .inl rfl⟩
    · exact ⟨q, c :: rest, ts, hcuts, .inr ⟨c, rest, r, rfl, hpiece, Token.within_of_piece hpiece⟩⟩
  · cases h : parse file text with
    | ok src => exact .inl ⟨src, rfl⟩
    | error e =>
        rcases parse_error h with ⟨cause, i, hi, hreport⟩ | ⟨rfl, -⟩
        · refine .inr (.inl ⟨e, cause, i, _, rfl, hi, rfl, hreport, ?_⟩)
          rw [SyntaxError.message?, hreport]
          rfl
        · exact .inr (.inr rfl)
  · refine ⟨fun h => ?_, parse_of_reachesOverlong file⟩
    rcases parse_error h with ⟨_, _, _, hreport⟩ | ⟨-, hover⟩
    · cases hreport
    · exact hover

theorem Text.ofDigits_replicate_f (n : Nat) : ofDigits 16 (List.replicate n 'f') + 1 = 16 ^ n := by
  have hdigit : digitValue 'f' = 15 := by decide
  induction n with
  | zero => rfl
  | succ n ih =>
      rw [List.replicate_succ', ofDigits_concat, hdigit, Nat.pow_succ', ← ih]
      omega

theorem Token.overlong_hexadecimal {n : Nat} (h : 3572 ≤ n) :
    Overlong ('0' :: 'x' :: List.replicate n 'f') := by
  have hne : List.replicate n 'f' ≠ [] := List.ne_nil_of_length_pos (by simp; omega)
  have hdigits (c : Char) (hc : c ∈ List.replicate n 'f') : Base.hexadecimal.isDigit c := by
    rw [List.eq_of_mem_replicate hc]
    decide
  obtain ⟨v, zeros, hv⟩ := Base.hexadecimal.numeral_of_isDigit hne hdigits
  have hvalue : Text.ofDigits 16 (List.replicate n 'f') = v :=
    (Base.hexadecimal.ofDigits_numeral hv).2
  have hsum := Text.ofDigits_replicate_f n
  have hlarge : 10 ^ Text.digitLimit < v + 1 :=
    calc
      10 ^ Text.digitLimit < 16 ^ 3572 := by decide +kernel
      _ ≤ 16 ^ n := Nat.pow_le_pow_right (by decide) h
      _ = v + 1 := by rw [← hsum, hvalue]
  refine ⟨.hexadecimal, v, ⟨['0', 'x'], by decide, _, zeros, rfl, nofun, ?_⟩,
    .inr (Nat.le_of_lt_succ hlarge)⟩
  rwa [List.filter_replicate_of_pos (by decide)]

/--
The one decimal digit of this text is that of the mark.  The number is far beyond
the words, which would be a fault, but the scanner does not come to say so.
-/
theorem Source.parse_not_total :
    let text := String.ofList ('0' :: 'x' :: List.replicate 3572 'f')
    text.toList.countP Token.isDecimalDigit = 1 ∧
      parse "<test>" text = .error .tooManyDigits ∧ SyntaxError.tooManyDigits.report? = none := by
  have hcount (n : Nat) :
      ('0' :: 'x' :: List.replicate n 'f').countP Token.isDecimalDigit = 1 := by
    simp [List.countP_replicate, Token.isDecimalDigit]
  intro text
  have htext : text.toList = '0' :: 'x' :: List.replicate 3572 'f' := String.toList_ofList
  refine ⟨by rw [htext, hcount], ?_, rfl⟩
  refine parse_of_reachesOverlong _ ⟨.start, [], _, [], ?_,
    Token.overlong_hexadecimal (Nat.le_refl _), .nil⟩
  rw [htext, List.append_nil]
  exact .done

end BrownLang
