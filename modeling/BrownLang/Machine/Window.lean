/-!
# Windows on a history

A window shows the latest `limit` items of all that were added to it.  It
holds two lists, each with the latest item first, and starts a new one when
the first is full.  Then the older of the two is no longer needed, so a window
never holds more than twice its limit, and adding an item is one step.
-/

namespace BrownLang

structure Window (α : Type) where
  limit : Nat
  newer : List α
  count : Nat
  older : List α
  count_eq : count = newer.length := by simp

namespace Window

variable {α : Type}

def empty (limit : Nat) : Window α := ⟨limit, [], 0, [], rfl⟩

def push (w : Window α) (a : α) : Window α :=
  if w.count < w.limit then
    { w with newer := a :: w.newer, count := w.count + 1, count_eq := by simp [w.count_eq] }
  else { w with newer := [a], count := 1, older := w.newer, count_eq := rfl }

/-- The items shown, the latest first. -/
def latestFirst (w : Window α) : List α := (w.newer ++ w.older).take w.limit

def toList (w : Window α) : List α := w.latestFirst.reverse

def latest? (w : Window α) : Option α := w.latestFirst.head?

@[simp] theorem limit_push (w : Window α) (a : α) : (w.push a).limit = w.limit := by
  unfold push
  split <;> rfl

@[simp] theorem latestFirst_empty (limit : Nat) :
    (empty limit : Window α).latestFirst = [] := by
  simp [latestFirst, empty]

theorem latestFirst_push (w : Window α) (a : α) :
    (w.push a).latestFirst = (a :: w.latestFirst).take w.limit := by
  unfold latestFirst push
  split
  case isTrue h =>
    obtain ⟨n, hn⟩ : ∃ n, w.limit = n + 1 := ⟨w.limit - 1, by omega⟩
    simp [hn, List.take_take]
  case isFalse h =>
    have full : w.limit ≤ w.newer.length := by
      have := w.count_eq
      omega
    cases hn : w.limit with
    | zero => simp
    | succ n =>
      rw [hn] at full
      rw [List.take_append_of_le_length full]
      simp only [List.singleton_append, List.take_succ_cons, List.take_take]
      rw [Nat.min_eq_left (Nat.le_succ n)]

end Window

end BrownLang
