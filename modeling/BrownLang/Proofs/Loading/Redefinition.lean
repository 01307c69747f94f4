import Mathlib.Data.List.Induction
import Mathlib.Data.List.Nodup
import BrownLang.Proofs.Execution.Safety
import BrownLang.Proofs.Syntax.Scanning

/-!
# Names that are defined twice

The loader refuses a source file exactly if a name is defined twice in its data
or twice in its code, and it reports the first name that repeats an earlier
one.  The labels that lowering makes have no part in this: they are numbered,
each number is used once, and no name of a text has a dollar sign.
-/

namespace BrownLang

open Token (isName)

/-! ## The first repetition in a list -/

/-- `x` repeats an earlier element of `xs`, and no element before it does so. -/
def FirstRepeat (xs : List String) (x : String) : Prop :=
  ∃ before after, xs = before ++ x :: after ∧ before.Nodup ∧ x ∈ before

namespace FirstRepeat

variable {xs : List String} {x y : String}

theorem not_nodup (h : FirstRepeat xs x) : ¬ xs.Nodup := by
  obtain ⟨before, after, rfl, -, hx⟩ := h
  intro hnodup
  rw [List.nodup_append] at hnodup
  exact hnodup.2.2 x hx x (by simp) rfl

theorem unique (hx : FirstRepeat xs x) (hy : FirstRepeat xs y) : x = y := by
  obtain ⟨before, after, rfl, hbefore, hx⟩ := hx
  obtain ⟨before', after', hsplit, hbefore', hy⟩ := hy
  rcases List.append_eq_append_iff.mp hsplit with ⟨mid, rfl, hmid⟩ | ⟨mid, rfl, hmid⟩
  · cases mid with
    | nil => simp_all
    | cons z mid =>
        obtain ⟨rfl, rfl⟩ := List.cons.inj hmid
        exact absurd hbefore' (not_nodup ⟨before, mid, rfl, hbefore, hx⟩)
  · cases mid with
    | nil => simp_all
    | cons z mid =>
        obtain ⟨rfl, rfl⟩ := List.cons.inj hmid
        exact absurd hbefore (not_nodup ⟨before', mid, rfl, hbefore', hy⟩)

theorem exists_of_not_nodup (h : ¬ xs.Nodup) : ∃ x, FirstRepeat xs x := by
  induction xs using List.reverseRecOn with
  | nil => exact absurd .nil h
  | append_singleton xs x ih =>
      by_cases hxs : xs.Nodup
      · have hx : x ∈ xs := by
          by_contra hx
          exact h (List.nodup_append.mpr ⟨hxs, by simp, by grind⟩)
        exact ⟨x, xs, [], rfl, hxs, hx⟩
      · obtain ⟨y, before, after, rfl, hy⟩ := ih hxs
        exact ⟨y, before, after ++ [x], by simp, hy⟩

theorem filter_iff {p : String → Bool} (h : (xs.filter fun x => !p x).Nodup) :
    FirstRepeat (xs.filter p) x ↔ FirstRepeat xs x := by
  have hfilter {z : String} (hz : FirstRepeat xs z) : FirstRepeat (xs.filter p) z := by
    obtain ⟨before, after, rfl, hbefore, hmem⟩ := hz
    cases hp : p z with
    | true =>
        refine ⟨before.filter p, after.filter p, ?_, hbefore.filter p, ?_⟩
        · simp [hp]
        · simp [hmem, hp]
    | false =>
        have hsplit : FirstRepeat ((before ++ z :: after).filter fun x => !p x) z := by
          refine ⟨before.filter fun x => !p x, after.filter fun x => !p x, ?_,
            hbefore.filter _, ?_⟩
          · simp [hp]
          · simp [hmem, hp]
        exact absurd h hsplit.not_nodup
  constructor
  · intro hx
    obtain ⟨y, hy⟩ := exists_of_not_nodup fun hxs : xs.Nodup => hx.not_nodup (hxs.filter p)
    rwa [hx.unique (hfilter hy)]
  · exact hfilter

end FirstRepeat

/-! ## The loader -/

theorem isSome_lookup_iff {t : Table} {x : String} :
    (t.lookup x).isSome ↔ x ∈ t.map Prod.fst := by
  induction t with
  | nil => simp
  | cons entry t ih =>
      rw [List.lookup_cons]
      by_cases hx : x = entry.1
      · simp [hx]
      · rw [beq_false_of_ne hx]
        simp [ih, hx]

/-- The names of a table, the latest first, and then those that are still to come. -/
def Table.followedBy (seen : Table) (names : List String) : List String :=
  (seen.map Prod.fst).reverse ++ names

namespace Code

@[simp] theorem defined_nil : defined [] = [] := rfl

@[simp] theorem defined_cons (line : CodeLine) (code : Code) :
    defined (line :: code) = line.instr.defines?.toList ++ defined code := by
  cases h : line.instr.defines? <;> simp [defined, h]

@[simp] theorem defined_append (code rest : Code) :
    defined (code ++ rest) = defined code ++ defined rest :=
  List.filterMap_append

end Code

namespace Table

variable {seen : Table} {x y : String} {names : List String}

theorem followedBy_cons (i : Nat) :
    Table.followedBy ((y, i) :: seen) names = seen.followedBy (y :: names) := by
  simp [Table.followedBy]

theorem nodup_cons (hseen : (seen.map Prod.fst).Nodup) (hy : ¬ (seen.lookup y).isSome) (i : Nat) :
    (((y, i) :: seen).map Prod.fst).Nodup := by
  rw [isSome_lookup_iff] at hy
  exact List.nodup_cons.mpr ⟨hy, hseen⟩

theorem not_firstRepeat_followedBy_nil (hseen : (seen.map Prod.fst).Nodup) :
    ¬ FirstRepeat (seen.followedBy []) x := by
  intro h
  apply h.not_nodup
  simpa [Table.followedBy] using hseen

theorem firstRepeat_followedBy_cons_iff (hseen : (seen.map Prod.fst).Nodup)
    (hy : (seen.lookup y).isSome) : FirstRepeat (seen.followedBy (y :: names)) x ↔ y = x := by
  have hfirst : FirstRepeat (seen.followedBy (y :: names)) y :=
    ⟨_, names, rfl, List.nodup_reverse.mpr hseen, by simpa using isSome_lookup_iff.mp hy⟩
  constructor
  · exact hfirst.unique
  · rintro rfl
    exact hfirst

theorem ofCodeAfter_eq_error_iff {code : Code} {i : Nat} (hseen : (seen.map Prod.fst).Nodup) :
    ofCodeAfter i seen code = .error x ↔ FirstRepeat (seen.followedBy code.defined) x := by
  induction code generalizing i seen with
  | nil => simpa [ofCodeAfter] using not_firstRepeat_followedBy_nil hseen
  | cons line rest ih =>
      unfold ofCodeAfter
      cases hd : line.instr.defines? with
      | none => simpa [hd] using ih hseen
      | some y =>
          rw [Code.defined_cons, hd, Option.toList_some, List.singleton_append]
          by_cases hy : (seen.lookup y).isSome
          · simp [hy, firstRepeat_followedBy_cons_iff hseen hy]
          · rw [← followedBy_cons i, ← ih (i := i + 1) (nodup_cons hseen hy i)]
            cases hrest : ofCodeAfter (i + 1) ((y, i) :: seen) rest <;>
              simp [hy, hrest, bind, Except.bind, pure, Except.pure]

theorem names_ofCodeAfter {code : Code} {i : Nat} {t : Table}
    (h : ofCodeAfter i seen code = .ok t) : t.map Prod.fst = code.defined := by
  induction code generalizing i seen t with
  | nil =>
      cases h
      rfl
  | cons line rest ih =>
      unfold ofCodeAfter at h
      cases hd : line.instr.defines? with
      | none =>
          rw [hd] at h
          simpa [hd] using ih h
      | some y =>
          simp only [hd] at h
          split at h
          · cases h
          · cases hrest : ofCodeAfter (i + 1) ((y, i) :: seen) rest with
            | error e => simp [hrest, bind, Except.bind] at h
            | ok t' =>
                rw [hrest] at h
                cases h
                simpa [hd] using ih hrest

end Table

def DataItem.label? : DataItem → Option String
  | label x => some x
  | bytes _ => none

theorem DataSegment.ofItemsAfter_eq_error_iff {items : List DataItem} {size : Nat} {seen : Table}
    {x : String} (hseen : (seen.map Prod.fst).Nodup) :
    ofItemsAfter size seen items = .error x ↔
      FirstRepeat (seen.followedBy (items.filterMap DataItem.label?)) x := by
  induction items generalizing size seen with
  | nil => simpa [ofItemsAfter] using Table.not_firstRepeat_followedBy_nil hseen
  | cons item rest ih =>
      unfold ofItemsAfter
      cases item with
      | bytes bs =>
          rw [List.filterMap_cons_none rfl, ← @ih (size + bs.length) seen hseen]
          cases hitems : ofItemsAfter (size + bs.length) seen rest <;>
            simp [hitems, bind, Except.bind, pure, Except.pure]
      | label y =>
          rw [List.filterMap_cons_some (f := DataItem.label?) rfl]
          by_cases hy : (seen.lookup y).isSome
          · simp [hy, Table.firstRepeat_followedBy_cons_iff hseen hy]
          · rw [← Table.followedBy_cons size, ← @ih size _ (Table.nodup_cons hseen hy size)]
            cases hitems : ofItemsAfter size ((y, size) :: seen) rest <;>
              simp [hy, hitems, bind, Except.bind, pure, Except.pure]

/-! ## Made labels -/

theorem madeLabel_injective : Function.Injective madeLabel := by
  intro j k h
  exact Text.decimal_injective ((String.append_right_inj "$internal_").mp h)

@[simp] theorem isName_madeLabel (k : Nat) : isName (madeLabel k) = false := by
  by_contra h
  exact ne_madeLabel_of_isName (by simpa using h) k rfl

namespace Stmt

mutual

def names : Stmt → List String
  | label x _ => [x]
  | function f _ _ body _ => f :: namesAll body
  | forLoop _ _ _ body _ | whileLoop _ body _ | ifThen _ body _ => namesAll body
  | ifElse _ yes no _ => namesAll yes ++ namesAll no
  | assign .. | goto .. | eval .. => []

def namesAll : List Stmt → List String
  | [] => []
  | s :: rest => names s ++ namesAll rest

end

mutual

theorem filter_defined_lower (k : Nat) {s : Stmt} (h : s.wellFormed) :
    (s.lower k).defined.filter isName = s.names := by
  match s with
  | assign .. | goto .. | eval .. => simp [lower, names, Instr.defines?]
  | label x _ =>
      simp only [wellFormed] at h
      simp [lower, names, Instr.defines?, h]
  | ifThen c yes _ =>
      simp only [wellFormed, Bool.and_eq_true] at h
      simp [lower, names, Instr.defines?, filter_defined_lowerAll (k + 1) h.2]
  | ifElse c yes no _ =>
      simp only [wellFormed, Bool.and_eq_true] at h
      simp [lower, names, Instr.defines?, filter_defined_lowerAll _ h.1.2,
        filter_defined_lowerAll _ h.2]
  | whileLoop c body _ | forLoop _ _ _ body _ =>
      simp only [wellFormed, Bool.and_eq_true] at h
      simp [lower, names, Instr.defines?, filter_defined_lowerAll (k + 2) h.2]
  | function f ps keep body _ =>
      simp only [wellFormed, Bool.and_eq_true] at h
      simp [lower, names, Instr.defines?, h.1.1.1, filter_defined_lowerAll k h.2]

theorem filter_defined_lowerAll (k : Nat) {b : Block} (h : wellFormedAll b) :
    (Code.defined (lowerAll k b)).filter isName = namesAll b := by
  match b with
  | [] => rfl
  | s :: rest =>
      simp only [wellFormedAll, Bool.and_eq_true] at h
      simp [lowerAll, namesAll, filter_defined_lower k h.1, filter_defined_lowerAll _ h.2]

end

theorem range'_two (k m n : Nat) :
    List.range' k (m + n + 2) =
      k :: (List.range' (k + 1) m ++ (k + 1 + m) :: List.range' (k + 1 + m + 1) n) := by
  rw [← List.range'_succ, List.range'_append_1, Nat.add_assoc m, ← List.range'_succ]
  rfl

mutual

theorem filter_not_defined_lower (k : Nat) {s : Stmt} (h : s.wellFormed) :
    ((s.lower k).defined.filter fun x => !isName x).Perm
      ((List.range' k s.labelCount).map madeLabel) := by
  match s with
  | assign .. | goto .. | eval .. => simp [lower, labelCount, Instr.defines?]
  | label x _ =>
      simp only [wellFormed] at h
      simp [lower, labelCount, Instr.defines?, h]
  | ifThen c yes _ =>
      simp only [wellFormed, Bool.and_eq_true] at h
      have hyes := filter_not_defined_lowerAll (k + 1) h.2
      simpa [lower, labelCount, Instr.defines?, List.range'_succ] using
        (List.perm_append_singleton _ _).trans (hyes.cons (madeLabel k))
  | ifElse c yes no _ =>
      simp only [wellFormed, Bool.and_eq_true] at h
      have hyes := filter_not_defined_lowerAll (k + 1) h.1.2
      have hno := filter_not_defined_lowerAll (k + 1 + labelCountAll yes + 1) h.2
      have hlast := (List.perm_append_singleton (madeLabel (k + 1 + labelCountAll yes)) _).trans
        (hno.cons (madeLabel (k + 1 + labelCountAll yes)))
      have hall := List.perm_middle.trans ((hyes.append hlast).cons (madeLabel k))
      simpa [lower, labelCount, Instr.defines?, range'_two] using hall
  | whileLoop c body _ | forLoop _ _ _ body _ =>
      simp only [wellFormed, Bool.and_eq_true] at h
      have hbody := filter_not_defined_lowerAll (k + 2) h.2
      simpa [lower, labelCount, Instr.defines?, List.range'_succ] using
        (List.perm_append_singleton _ _).trans (hbody.cons (madeLabel (k + 1)))
  | function f ps keep body _ =>
      simp only [wellFormed, Bool.and_eq_true] at h
      simpa [lower, labelCount, Instr.defines?, h.1.1.1] using filter_not_defined_lowerAll k h.2

theorem filter_not_defined_lowerAll (k : Nat) {b : Block} (h : wellFormedAll b) :
    ((Code.defined (lowerAll k b)).filter fun x => !isName x).Perm
      ((List.range' k (labelCountAll b)).map madeLabel) := by
  match b with
  | [] => rfl
  | s :: rest =>
      simp only [wellFormedAll, Bool.and_eq_true] at h
      have happend := (filter_not_defined_lower k h.1).append
        (filter_not_defined_lowerAll (k + s.labelCount) h.2)
      rw [← List.map_append] at happend
      simpa [lowerAll, labelCountAll] using happend

end

end Stmt

/-! ## Programs -/

namespace Source

def dataNames (s : Source) : List String := s.data.filterMap DataItem.label?

/-- The labels and functions of the code, at every depth, in order. -/
def codeNames (s : Source) : List String := Stmt.namesAll s.code

def madeLabels (s : Source) : List String :=
  (List.range (Stmt.labelCountAll s.code)).map madeLabel

theorem nodup_madeLabels (s : Source) : s.madeLabels.Nodup :=
  List.nodup_range.map madeLabel_injective

theorem not_mem_madeLabels {s : Source} {x : String} (h : isName x) : x ∉ s.madeLabels := by
  intro hx
  obtain ⟨k, -, rfl⟩ := List.mem_map.mp hx
  simp at h

variable {s : Source} (hs : s.WellFormed)

include hs

theorem isName_of_mem_dataNames {x : String} (hx : x ∈ s.dataNames) : isName x := by
  obtain ⟨item, hitem, hlabel⟩ := List.mem_filterMap.mp hx
  have hwf := hs.data item hitem
  cases item with
  | bytes bs => cases hlabel
  | label y =>
      cases hlabel
      exact hwf

theorem filter_defined : (Code.ofBlock s.code).defined.filter isName = s.codeNames :=
  Stmt.filter_defined_lowerAll 0 hs.code

theorem isName_of_mem_codeNames {x : String} (hx : x ∈ s.codeNames) : isName x := by
  rw [← filter_defined hs] at hx
  exact (List.mem_filter.mp hx).2

theorem filter_not_defined :
    ((Code.ofBlock s.code).defined.filter fun x => !isName x).Perm s.madeLabels := by
  rw [madeLabels, List.range_eq_range']
  exact Stmt.filter_not_defined_lowerAll 0 hs.code

theorem perm_defined : (Code.ofBlock s.code).defined.Perm (s.codeNames ++ s.madeLabels) := by
  rw [← filter_defined hs]
  exact (List.filter_append_perm isName _).symm.trans ((filter_not_defined hs).append_left _)

/-- The made labels hide no repetition and cause none. -/
theorem firstRepeat_defined_iff {x : String} :
    FirstRepeat (Code.ofBlock s.code).defined x ↔ FirstRepeat s.codeNames x := by
  rw [← filter_defined hs]
  apply (FirstRepeat.filter_iff _).symm
  exact (filter_not_defined hs).nodup_iff.mpr s.nodup_madeLabels

end Source

theorem Table.ofCode_eq_error_iff {code : Code} {x : String} :
    ofCode code = .error x ↔ FirstRepeat code.defined x :=
  ofCodeAfter_eq_error_iff List.nodup_nil

theorem DataSegment.ofItems_eq_error_iff {items : List DataItem} {x : String} :
    ofItems items = .error x ↔ FirstRepeat (items.filterMap DataItem.label?) x :=
  ofItemsAfter_eq_error_iff List.nodup_nil

namespace Program

variable {s : Source} (hs : s.WellFormed)

include hs

theorem ofSource_eq_error_iff {x : String} :
    ofSource s = .error x ↔
      FirstRepeat s.dataNames x ∨ s.dataNames.Nodup ∧ FirstRepeat s.codeNames x := by
  rw [← Source.firstRepeat_defined_iff hs, ← Table.ofCode_eq_error_iff]
  have hdata {y : String} : DataSegment.ofItems s.data = .error y ↔ FirstRepeat s.dataNames y :=
    DataSegment.ofItems_eq_error_iff
  unfold ofSource
  cases hitems : DataSegment.ofItems s.data with
  | error y =>
      have hy := hdata.mp hitems
      simp [bind, Except.bind, hitems, ← hdata, hy.not_nodup]
  | ok d =>
      have hnodup : s.dataNames.Nodup := by
        by_contra h
        obtain ⟨y, hy⟩ := FirstRepeat.exists_of_not_nodup h
        cases hitems.symm.trans (hdata.mpr hy)
      rw [← hdata, hitems]
      cases hcode : Table.ofCode (Code.ofBlock s.code) <;>
        simp [bind, Except.bind, pure, Except.pure, hnodup, hcode]

theorem exists_ofSource_eq_error_iff :
    (∃ x, ofSource s = .error x) ↔ ¬ s.dataNames.Nodup ∨ ¬ s.codeNames.Nodup := by
  simp only [ofSource_eq_error_iff hs]
  constructor
  · rintro ⟨x, hx | ⟨-, hx⟩⟩
    · exact .inl hx.not_nodup
    · exact .inr hx.not_nodup
  · intro h
    by_cases hdata : s.dataNames.Nodup
    · obtain ⟨x, hx⟩ := FirstRepeat.exists_of_not_nodup (h.resolve_left (not_not_intro hdata))
      exact ⟨x, .inr ⟨hdata, hx⟩⟩
    · obtain ⟨x, hx⟩ := FirstRepeat.exists_of_not_nodup hdata
      exact ⟨x, .inl hx⟩

variable {p : Program} (hload : ofSource s = .ok p)

include hload

theorem perm_labels : (p.labels.map Prod.fst).Perm (s.codeNames ++ s.madeLabels) := by
  obtain ⟨-, -, hlabels, -, -, -⟩ := ofSource_ok hload
  rw [Table.names_ofCodeAfter hlabels]
  exact Source.perm_defined hs

theorem nodup_codeNames : s.codeNames.Nodup := by
  by_contra h
  obtain ⟨x, hx⟩ := (exists_ofSource_eq_error_iff hs).mpr (.inr h)
  cases hload.symm.trans hx

theorem nodup_labels : (p.labels.map Prod.fst).Nodup := by
  rw [(perm_labels hs hload).nodup_iff, List.nodup_append]
  refine ⟨nodup_codeNames hs hload, s.nodup_madeLabels, ?_⟩
  rintro x hx _ hmade rfl
  exact Source.not_mem_madeLabels (Source.isName_of_mem_codeNames hs hx) hmade

theorem lookup_labels_of_made {k : Nat} (h : madeLabel k ∈ p.targets) :
    (p.labels.lookup (madeLabel k)).isSome := by
  cases hnone : p.labels.lookup (madeLabel k) with
  | some i => rfl
  | none =>
      have hgoto := mem_gotos_of_lookup_eq_none hload h hnone
      have hname := Stmt.isName_of_mem_gotosAll hs.code hgoto
      simp at hname

omit hs hload

/--
A source file that was read from a text is loaded unless a name is defined
twice in its data or twice in its code, where depth does not matter, and the
first repetition is reported.  The labels that lowering makes differ from each
other and from all names.  The table of a program has the names of the code and
the made labels, once each, with the index of the one instruction that defines
them; a jump to a made label finds it there.
-/
theorem label_check_exact {file text : String} (hparse : Source.parse file text = .ok s) :
    (s.madeLabels.Nodup ∧ ∀ x ∈ s.dataNames ++ s.codeNames, ∀ k, x ≠ madeLabel k) ∧
    (Code.ofBlock s.code).defined.Perm (s.codeNames ++ s.madeLabels) ∧
    ((∃ x, ofSource s = .error x) ↔ ¬ s.dataNames.Nodup ∨ ¬ s.codeNames.Nodup) ∧
    (∀ x, ofSource s = .error x ↔
      FirstRepeat s.dataNames x ∨ s.dataNames.Nodup ∧ FirstRepeat s.codeNames x) ∧
    ∀ p, ofSource s = .ok p →
      p.code.toList = Code.ofBlock s.code ∧
      (p.labels.map Prod.fst).Nodup ∧
      (p.labels.map Prod.fst).Perm (s.codeNames ++ s.madeLabels) ∧
      (∀ x i, p.labels.lookup x = some i ↔
        ∃ line, p.code[i]? = some line ∧ line.instr.defines? = some x) ∧
      ∀ k, madeLabel k ∈ p.targets → (p.labels.lookup (madeLabel k)).isSome := by
  have hs : s.WellFormed := Source.wellFormed_of_parse hparse
  refine ⟨⟨s.nodup_madeLabels, ?_⟩, Source.perm_defined hs, exists_ofSource_eq_error_iff hs,
    fun x => ofSource_eq_error_iff hs, fun p hload => ⟨?_, nodup_labels hs hload,
      perm_labels hs hload, ?_, fun k => lookup_labels_of_made hs hload⟩⟩
  · intro x hx k
    apply ne_madeLabel_of_isName
    rcases List.mem_append.mp hx with hx | hx
    · exact Source.isName_of_mem_dataNames hs hx
    · exact Source.isName_of_mem_codeNames hs hx
  · obtain ⟨-, -, -, hcode, -, -⟩ := ofSource_ok hload
    rw [hcode]
  · exact lookup_labels_iff (loaded_of_ofSource hload)

def twice : Source where
  data := [.label "a"]
  code := [
    .whileLoop (.lit 1) [.label "a" (some ⟨"twice", 5, 1, "a:"⟩)]
      (some ⟨"twice", 4, 1, "while 1"⟩),
    .function "f" [] false
      [.label "b" (some ⟨"twice", 8, 1, "b:"⟩), .label "a" (some ⟨"twice", 9, 1, "a:"⟩)]
      (some ⟨"twice", 7, 1, "fun f()"⟩),
    .label "b" (some ⟨"twice", 11, 1, "b:"⟩)]

theorem twice_rejected :
    Source.parse "twice" "data\na:\nend\nwhile 1\na:\nend\nfun f()\nb:\na:\nend\nb:" =
      .ok twice ∧ ofSource twice = .error "a" := by
  have hparse : Source.parse "twice"
      "data\na:\nend\nwhile 1\na:\nend\nfun f()\nb:\na:\nend\nb:" = .ok twice := by
    cbv
  obtain ⟨-, -, -, herror, -⟩ := label_check_exact hparse
  have hfirst : FirstRepeat twice.codeNames "a" := ⟨["a", "f", "b"], ["b"], rfl, by decide⟩
  exact ⟨hparse, (herror "a").mpr (.inr ⟨by decide, hfirst⟩)⟩

end Program

end BrownLang
