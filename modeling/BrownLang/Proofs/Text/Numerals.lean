import BrownLang.Text.Numeral
import Mathlib.Data.List.Induction
import Mathlib.Data.Nat.Digits.Defs

/-!
# Numerals and their values

A number that is written in decimal reads as itself, also with zeros before it.
So different numbers have different numerals of every least width.  The host
converts digits unless they, or the decimal digits of their number, are too many.
-/

namespace BrownLang.Text

theorem digitValue_of_isDigit {c : Char} (h : c.isDigit) :
    digitValue c = c.toNat - '0'.toNat := by
  simp only [Char.isDigit, Bool.and_eq_true, decide_eq_true_eq] at h
  rw [digitValue, if_pos]
  simp only [Char.le_def]
  exact h

theorem ofDigits_toDigits (n : Nat) : ofDigits 10 (Nat.toDigits 10 n) = n := by
  have hfold (cs : List Char) (a : Nat) (h : ∀ c ∈ cs, c.isDigit) :
      cs.foldl (fun n c => n * 10 + digitValue c) a = Nat.ofDigitChars 10 cs a := by
    induction cs generalizing a with
    | nil => rfl
    | cons c cs ih =>
        rw [List.foldl_cons, ih _ fun d hd => h d (List.mem_cons_of_mem _ hd),
          Nat.ofDigitChars_cons, digitValue_of_isDigit (h c (by simp)), Nat.mul_comm]
  rw [ofDigits, hfold _ _ fun c hc => Nat.isDigit_of_mem_toDigits (by omega) (by omega) hc]
  exact Nat.ofDigitChars_ten_toDigits

theorem decimal_injective : Function.Injective decimal := by
  intro j k h
  have hdigits : Nat.toDigits 10 j = Nat.toDigits 10 k := String.ofList_injective h
  rw [← ofDigits_toDigits j, hdigits, ofDigits_toDigits]

theorem ofDigits_zeros (base k : Nat) (ds : List Char) :
    ofDigits base (List.replicate k '0' ++ ds) = ofDigits base ds := by
  induction k with
  | zero => rfl
  | succ k ih =>
      have hzero : digitValue '0' = 0 := by decide
      rw [ofDigits] at ih
      rw [ofDigits, List.replicate_succ, List.cons_append, List.foldl_cons, hzero, Nat.zero_mul,
        ih]

theorem ofDigits_concat (base : Nat) (ds : List Char) (c : Char) :
    ofDigits base (ds ++ [c]) = base * ofDigits base ds + digitValue c := by
  rw [ofDigits, List.foldl_append, Nat.mul_comm]
  rfl

theorem ofDigits_eq_of_map_eq {base : Nat} {ds es : List Char}
    (h : ds.map digitValue = es.map digitValue) : ofDigits base ds = ofDigits base es := by
  have hfold (cs : List Char) : ofDigits base cs =
      (cs.map digitValue).foldl (fun n d => n * base + d) 0 := by
    rw [List.foldl_map]
    rfl
  rw [hfold, hfold, h]

/-! ## Numerals of limited length -/

theorem ofDigits_lt {base : Nat} {ds : List Char} (h : ∀ c ∈ ds, digitValue c < base) :
    ofDigits base ds < base ^ ds.length := by
  induction ds using List.reverseRecOn with
  | nil => exact Nat.one_pos
  | append_singleton ds c ih =>
      have hc := h c (by simp)
      rw [ofDigits_concat, List.length_append, List.length_singleton]
      calc
        base * ofDigits base ds + digitValue c < base * (ofDigits base ds + 1) := by
          rw [Nat.mul_succ]
          omega
        _ ≤ base * base ^ ds.length :=
          Nat.mul_le_mul_left base (ih fun d hd => h d (by simp [hd]))
        _ = base ^ (ds.length + 1) := (Nat.pow_succ').symm

theorem digitValue_lt_of_isDigit {c : Char} (h : c.isDigit) : digitValue c < 10 := by
  rw [digitValue_of_isDigit h]
  simp only [Char.isDigit, Bool.and_eq_true, decide_eq_true_eq, UInt32.le_iff_toNat_le] at h
  exact Nat.lt_succ_of_le (Nat.sub_le_sub_right h.2 _)

theorem length_decimal_le_iff {n k : Nat} (hk : 0 < k) : (decimal n).length ≤ k ↔ n < 10 ^ k := by
  rw [decimal, String.length_ofList]
  constructor
  · intro hle
    have hdigits (c : Char) (hc : c ∈ Nat.toDigits 10 n) : digitValue c < 10 :=
      digitValue_lt_of_isDigit (Nat.isDigit_of_mem_toDigits (by omega) (by omega) hc)
    calc
      n = ofDigits 10 (Nat.toDigits 10 n) := (ofDigits_toDigits n).symm
      _ < 10 ^ (Nat.toDigits 10 n).length := ofDigits_lt hdigits
      _ ≤ 10 ^ k := Nat.pow_le_pow_right (by omega) hle
  · exact Nat.toDigits_length 10 n k hk

/-- The digits, or the decimal digits of their number, are more than the host converts. -/
def Overlong (base : Nat) (ds : List Char) : Prop :=
  base = 10 ∧ digitLimit < ds.length ∨ 10 ^ digitLimit ≤ ofDigits base ds

theorem convert?_eq (base : Nat) (ds : List Char) :
    Overlong base ds ∧ convert? base ds = none ∨
      ¬ Overlong base ds ∧ convert? base ds = some (ofDigits base ds) := by
  have hwritten : digitLimit < (decimal (ofDigits base ds)).length ↔
      10 ^ digitLimit ≤ ofDigits base ds := by
    rw [← Nat.not_le, length_decimal_le_iff (by decide), Nat.not_lt]
  unfold convert? Overlong
  simp only [hwritten]
  split
  next h => exact .inl ⟨h, rfl⟩
  next h => exact .inr ⟨h, rfl⟩

theorem convert?_decimal {n : Nat} (h : n < 10 ^ digitLimit) :
    convert? 10 (Nat.toDigits 10 n) = some n := by
  have hlength : (Nat.toDigits 10 n).length ≤ digitLimit := by
    have hle := (length_decimal_le_iff (by decide)).mpr h
    rwa [decimal, String.length_ofList] at hle
  rcases convert?_eq 10 (Nat.toDigits 10 n) with ⟨hover, -⟩ | ⟨-, heq⟩
  · rcases hover with ⟨-, hlong⟩ | hlarge
    · exact absurd hlong (Nat.not_lt.mpr hlength)
    · rw [ofDigits_toDigits] at hlarge
      exact absurd h (Nat.not_lt.mpr hlarge)
  · rw [heq, ofDigits_toDigits]

/-! ## Least widths -/

variable (width n : Nat)

theorem toList_zeroPadded : (zeroPadded width n).toList =
    List.replicate (width - (Nat.toDigits 10 n).length) '0' ++ Nat.toDigits 10 n := by
  simp [zeroPadded, padLeft, decimal]

theorem length_zeroPadded :
    (zeroPadded width n).length = max width (Nat.toDigits 10 n).length := by
  rw [← String.length_toList, toList_zeroPadded, List.length_append, List.length_replicate]
  omega

theorem isDigit_of_mem_zeroPadded {c : Char} (h : c ∈ (zeroPadded width n).toList) :
    c.isDigit := by
  rw [toList_zeroPadded, List.mem_append] at h
  rcases h with h | h
  · rw [List.eq_of_mem_replicate h]
    decide
  · exact Nat.isDigit_of_mem_toDigits (by omega) (by omega) h

@[simp] theorem ofDigits_zeroPadded : ofDigits 10 (zeroPadded width n).toList = n := by
  rw [toList_zeroPadded, ofDigits_zeros, ofDigits_toDigits]

theorem zeroPadded_injective : Function.Injective (zeroPadded width) := by
  intro j k h
  rw [← ofDigits_zeroPadded width j, h, ofDigits_zeroPadded]

end BrownLang.Text
