import BrownLang.Program

/-!
# The label tables

The table of some code maps exactly the names that the code defines, each to
the index of the one instruction that defines it.  The table of the data has
each label once.
-/

namespace BrownLang

namespace Table

theorem ofCodeAfter_lookup_of_seen {code : Code} {i : Nat} {seen t : Table} {x : String}
    (h : ofCodeAfter i seen code = .ok t) (hx : (seen.lookup x).isSome) :
    t.lookup x = none := by
  induction code generalizing i seen t with
  | nil =>
      injection h with ht
      subst ht
      rfl
  | cons line rest ih =>
      unfold ofCodeAfter at h
      cases hd : line.instr.defines? with
      | none =>
          rw [hd] at h
          exact ih h hx
      | some y =>
          simp only [hd] at h
          split at h
          next => exact nomatch h
          next hy =>
            cases hrest : ofCodeAfter (i + 1) ((y, i) :: seen) rest with
            | error e =>
                rw [hrest] at h
                exact nomatch h
            | ok t' =>
                rw [hrest] at h
                injection h with ht
                subst ht
                have hne : x ≠ y := by
                  rintro rfl
                  exact hy hx
                rw [List.lookup_cons, beq_false_of_ne hne]
                apply ih hrest
                rwa [List.lookup_cons, beq_false_of_ne hne]

theorem ofCodeAfter_lookup_iff {code : Code} {i : Nat} {seen t : Table} {x : String} {j : Nat}
    (h : ofCodeAfter i seen code = .ok t) :
    t.lookup x = some j ↔
      ∃ d line, j = i + d ∧ code[d]? = some line ∧ line.instr.defines? = some x := by
  induction code generalizing i seen t with
  | nil =>
      injection h with ht
      subst ht
      simp
  | cons line rest ih =>
      have shift : (∃ d l, j = i + 1 + d ∧ rest[d]? = some l ∧ l.instr.defines? = some x) ↔
          ∃ d l, j = i + (d + 1) ∧ (line :: rest)[d + 1]? = some l ∧
            l.instr.defines? = some x := by
        simp only [List.getElem?_cons_succ, Nat.add_assoc, Nat.add_comm 1]
      have cases_index {p : Nat → Prop} : (∃ d, p d) ↔ p 0 ∨ ∃ d, p (d + 1) := by
        constructor
        · rintro ⟨d, hd⟩
          cases d with
          | zero => exact .inl hd
          | succ d => exact .inr ⟨d, hd⟩
        · rintro (hd | ⟨d, hd⟩)
          · exact ⟨0, hd⟩
          · exact ⟨d + 1, hd⟩
      rw [cases_index, ← shift]
      unfold ofCodeAfter at h
      cases hd : line.instr.defines? with
      | none =>
          rw [hd] at h
          rw [ih h]
          constructor
          · exact .inr
          · rintro (⟨l, -, hl, hx⟩ | hrest)
            · cases hl
              rw [hd] at hx
              exact nomatch hx
            · exact hrest
      | some y =>
          simp only [hd] at h
          split at h
          next => exact nomatch h
          next hy =>
            cases hrest : ofCodeAfter (i + 1) ((y, i) :: seen) rest with
            | error e =>
                rw [hrest] at h
                exact nomatch h
            | ok t' =>
                rw [hrest] at h
                injection h with ht
                subst ht
                by_cases hxy : x = y
                · subst hxy
                  have hnone : t'.lookup x = none :=
                    ofCodeAfter_lookup_of_seen hrest (by simp)
                  rw [List.lookup_cons_self]
                  constructor
                  · rintro ⟨⟩
                    exact .inl ⟨line, rfl, rfl, hd⟩
                  · rintro (⟨l, hj, -, -⟩ | hlater)
                    · rw [hj]
                      rfl
                    · rw [← ih hrest, hnone] at hlater
                      exact nomatch hlater
                · rw [List.lookup_cons, beq_false_of_ne hxy, ih hrest]
                  constructor
                  · exact .inr
                  · rintro (⟨l, -, hl, hx⟩ | hlater)
                    · cases hl
                      rw [hd] at hx
                      exact absurd (Option.some.inj hx).symm hxy
                    · exact hlater

theorem lookup_ofCode_iff {code : Code} {t : Table} (h : ofCode code = .ok t) (x : String)
    (i : Nat) :
    t.lookup x = some i ↔ ∃ line, code[i]? = some line ∧ line.instr.defines? = some x := by
  rw [ofCodeAfter_lookup_iff h]
  simp

end Table

namespace DataSegment

variable {items : List DataItem} {size : Nat} {seen : Table} {d : DataSegment}

theorem ofItemsAfter_label {x : String}
    (h : ofItemsAfter size seen (.label x :: items) = .ok d) :
    seen.lookup x = none ∧ ∃ d', ofItemsAfter size ((x, size) :: seen) items = .ok d' ∧
      d = ⟨d'.bytes, (x, size) :: d'.labels⟩ := by
  unfold ofItemsAfter at h
  split at h
  next => exact nomatch h
  next hx =>
    cases hrest : ofItemsAfter size ((x, size) :: seen) items with
    | error e =>
        rw [hrest] at h
        exact nomatch h
    | ok d' =>
        rw [hrest] at h
        injection h with hd
        exact ⟨Option.not_isSome_iff_eq_none.mp hx, d', rfl, hd.symm⟩

theorem ofItemsAfter_bytes {bs : List UInt8}
    (h : ofItemsAfter size seen (.bytes bs :: items) = .ok d) :
    ∃ d', ofItemsAfter (size + bs.length) seen items = .ok d' ∧
      d = ⟨bs ++ d'.bytes, d'.labels⟩ := by
  unfold ofItemsAfter at h
  cases hrest : ofItemsAfter (size + bs.length) seen items with
  | error e =>
      rw [hrest] at h
      exact nomatch h
  | ok d' =>
      rw [hrest] at h
      injection h with hd
      exact ⟨d', rfl, hd.symm⟩

theorem nodup_of_ofItemsAfter (h : ofItemsAfter size seen items = .ok d) :
    (d.labels.map Prod.fst).Nodup ∧ ∀ x ∈ d.labels.map Prod.fst, seen.lookup x = none := by
  induction items generalizing size seen d with
  | nil =>
      injection h with hd
      subst hd
      exact ⟨.nil, fun x hx => nomatch hx⟩
  | cons item rest ih =>
      cases item with
      | bytes bs =>
          obtain ⟨d', hrest, rfl⟩ := ofItemsAfter_bytes h
          have hlabels := ih hrest
          exact hlabels
      | label x =>
          obtain ⟨hx, d', hrest, rfl⟩ := ofItemsAfter_label h
          obtain ⟨hnodup, hnone⟩ := ih hrest
          have hother : ∀ y ∈ d'.labels.map Prod.fst, y ≠ x ∧ seen.lookup y = none := by
            intro y hy
            have hy' := hnone y hy
            rw [List.lookup_cons] at hy'
            split at hy'
            next => exact nomatch hy'
            next hne => exact ⟨ne_of_beq_false hne, hy'⟩
          constructor
          · exact List.nodup_cons.mpr ⟨fun hx => (hother x hx).1 rfl, hnodup⟩
          · intro y hy
            rcases List.mem_cons.mp hy with rfl | hy
            · exact hx
            · exact (hother y hy).2

end DataSegment

/-- The label table of a program is that of its code. -/
def Program.Loaded (p : Program) : Prop := Table.ofCode p.code.toList = .ok p.labels

theorem Program.ofSource_ok {s : Source} {p : Program} (h : ofSource s = .ok p) :
    ∃ d, DataSegment.ofItems s.data = .ok d ∧
      Table.ofCode (Code.ofBlock s.code) = .ok p.labels ∧
      p.code = (Code.ofBlock s.code).toArray ∧ p.data = d.bytes ∧ p.dataLabels = d.labels := by
  unfold ofSource at h
  cases hd : DataSegment.ofItems s.data with
  | error e =>
      rw [hd] at h
      exact nomatch h
  | ok d =>
      cases hl : Table.ofCode (Code.ofBlock s.code) with
      | error e => simp [hd, hl, bind, Except.bind] at h
      | ok labels =>
          simp only [hd, hl, bind, Except.bind] at h
          injection h with hp
          subst hp
          exact ⟨d, rfl, rfl, rfl, rfl, rfl⟩

theorem Program.loaded_of_ofSource {s : Source} {p : Program} (h : ofSource s = .ok p) :
    p.Loaded := by
  obtain ⟨d, -, hlabels, hcode, -, -⟩ := ofSource_ok h
  rw [Loaded, hcode]
  exact hlabels

theorem Program.nodup_dataLabels {s : Source} {p : Program} (h : ofSource s = .ok p) :
    (p.dataLabels.map Prod.fst).Nodup := by
  obtain ⟨d, hd, -, -, -, hlabels⟩ := ofSource_ok h
  rw [hlabels]
  exact (DataSegment.nodup_of_ofItemsAfter hd).1

theorem Program.lookup_labels_iff {p : Program} (h : p.Loaded) (x : String) (i : Nat) :
    p.labels.lookup x = some i ↔
      ∃ line, p.code[i]? = some line ∧ line.instr.defines? = some x := by
  rw [Table.lookup_ofCode_iff h]
  simp

theorem Program.lt_of_lookup_labels {p : Program} (h : p.Loaded) {x : String} {i : Nat}
    (hx : p.labels.lookup x = some i) : i < p.code.size := by
  obtain ⟨line, hline, -⟩ := (p.lookup_labels_iff h x i).mp hx
  exact (Array.getElem?_eq_some_iff.mp hline).1

end BrownLang
