import BrownLang.Location
import BrownLang.Machine.Window
import BrownLang.Text.Numeral

/-!
# The journal

Every instruction that is started makes an entry.  The journal keeps the
latest entries, and, however old it is, the latest entry of every call that is
in progress.
-/

namespace BrownLang

structure Frame where
  name : String
  id : Nat
  callLoc : Option Location
  deriving DecidableEq, Repr

def Frame.label (id : Nat) : String := "f_" ++ Text.zeroPadded 4 id

structure Entry where
  step : Nat
  frame : Option Nat
  ip : Nat
  rule : String
  loc : Option Location
  /-- The values of the variables before the instruction, if they were asked for. -/
  snapshot : Option (List (String × Nat))
  deriving DecidableEq, Repr

def Entry.label (e : Entry) : String := "s_" ++ Text.zeroPadded 6 e.step

/-- Entries by the number of their frame, the highest number first. -/
abbrev FrameEntries := List (Nat × Entry)

namespace FrameEntries

def put (id : Nat) (e : Entry) : FrameEntries → FrameEntries
  | [] => [(id, e)]
  | (k, x) :: rest =>
    if k = id then (id, e) :: rest
    else if k < id then (id, e) :: (k, x) :: rest
    else (k, x) :: put id e rest

def drop (id : Nat) : FrameEntries → FrameEntries
  | [] => []
  | (k, x) :: rest => if k = id then rest else (k, x) :: drop id rest

theorem lookup_put (id j : Nat) (e : Entry) (es : FrameEntries) :
    (put id e es).lookup j = if j = id then some e else es.lookup j := by
  have miss {k : Nat} (x : Entry) (rest : FrameEntries) (h : j ≠ k) :
      List.lookup j ((k, x) :: rest) = List.lookup j rest := by
    rw [List.lookup_cons, beq_false_of_ne h]
  have hit (x : Entry) (rest : FrameEntries) : List.lookup j ((j, x) :: rest) = some x :=
    List.lookup_cons_self
  induction es with
  | nil =>
    by_cases h : j = id
    · subst h
      simp [put, hit]
    · simp [put, miss, h]
  | cons p rest ih =>
    obtain ⟨k, x⟩ := p
    unfold put
    by_cases h : j = id
    · subst h
      by_cases hk : k = j
      · simp [hk, hit]
      · by_cases hlt : k < j
        · simp [hk, hlt, hit]
        · simp [hk, hlt, miss x _ (Ne.symm hk), ih]
    · by_cases hk : k = id
      · subst hk
        simp [h, miss]
      · by_cases hlt : k < id
        · simp [hk, hlt, h, miss]
        · by_cases hj : j = k
          · subst hj
            simp [hk, hlt, hit]
          · simp [hk, hlt, h, miss x _ hj, ih]

theorem lookup_drop_of_ne {id j : Nat} (h : j ≠ id) (es : FrameEntries) :
    (drop id es).lookup j = es.lookup j := by
  induction es with
  | nil => rfl
  | cons p rest ih =>
    obtain ⟨k, x⟩ := p
    unfold drop
    by_cases hk : k = id
    · subst hk
      rw [if_pos rfl, List.lookup_cons, beq_false_of_ne h]
    · rw [if_neg hk, List.lookup_cons, List.lookup_cons, ih]

end FrameEntries

structure Journal where
  kept : Window Entry
  next : Nat
  latest : FrameEntries

namespace Journal

def empty (limit : Nat) : Journal := ⟨.empty limit, 0, []⟩

/-- Adds an entry, which has to bear the number `next`. -/
def add (j : Journal) (e : Entry) : Journal where
  kept := j.kept.push e
  next := j.next + 1
  latest :=
    match e.frame with
    | some id => j.latest.put id e
    | none => j.latest

def dropFrame (j : Journal) (id : Nat) : Journal := { j with latest := j.latest.drop id }

def entryOf? (j : Journal) (f : Frame) : Option Entry := j.latest.lookup f.id

end Journal

end BrownLang
