import BrownLang.Machine.Builtin
import BrownLang.Proofs.Execution.Action

/-!
# The local actions

All actions on variables and memory, output, random numbers and drawing are
local, and so is every built-in function.
-/

namespace BrownLang

namespace Exec

/-! ## Memory and variables -/

theorem local_check (access : Access) (a : Nat) : Local (check access a) := by
  refine .get_bind (fun s => .lift _) ?_
  intro s c
  rfl

theorem check_eq {access : Access} {a : Nat} {s : State} :
    check access a s = if a + access.width ≤ s.memory.size then .ok () s
      else .error (.fault (.memory ⟨access, a, s.memory.size⟩)) s := by
  change (lift ((s.memory.check access a).mapError .memory) : Exec Unit) s = _
  unfold Memory.check
  split <;> rfl

theorem readWord_of_le {a : Nat} {s : State} (h : a + 4 ≤ s.memory.size) :
    readWord a s = .ok (s.memory.wordAt a) s := by
  have hcheck : check .readWord a s = .ok () s := by
    rw [check_eq]
    exact if_pos h
  rw [readWord, bind_of_ok hcheck]
  rfl

theorem writeWord_of_le {a : Nat} {v : Int} {s : State} (h : a + 4 ≤ s.memory.size) :
    writeWord a v s = .ok () { s with memory := s.memory.setWord a (Word.ofInt v) } := by
  have hcheck : check .writeWord a s = .ok () s := by
    rw [check_eq]
    exact if_pos h
  rw [writeWord, bind_of_ok hcheck]
  rfl

theorem local_readWord (a : Nat) : Local (readWord a) := by
  refine .bind (local_check _ _) fun _ => .get_bind (fun s => .pure _) ?_
  intro s c
  rfl

theorem local_readByte (a : Nat) : Local (readByte a) := by
  refine .bind (local_check _ _) fun _ => .get_bind (fun s => .pure _) ?_
  intro s c
  rfl

theorem local_writeWord (a : Nat) (v : Int) : Local (writeWord a v) := by
  refine .bind (local_check _ _) fun _ => .modify ?_ ?_
  · intro s c
    rfl
  · intro s
    exact .of_eq (by simp) rfl

theorem local_writeByte (a : Nat) (v : Int) : Local (writeByte a v) := by
  refine .bind (local_check _ _) fun _ => .modify ?_ ?_
  · intro s c
    rfl
  · intro s
    exact .of_eq (by simp) rfl

theorem addressOf_of_some {x : String} {s : State} {a : Nat} (h : s.vars.lookup x = some a) :
    addressOf x s = .ok a s := by
  rw [addressOf, get_bind, h]
  rfl

theorem addressOf_of_none {x : String} {s : State} (h : s.vars.lookup x = none) :
    addressOf x s = .ok s.memory.size
      { s with memory := s.memory.allocateWord, vars := s.vars ++ [(x, s.memory.size)] } := by
  rw [addressOf, get_bind, h]
  rfl

theorem readVar_of_lookup {x : String} {s : State} {a : Nat} (hx : s.vars.lookup x = some a)
    (h : a + 4 ≤ s.memory.size) : readVar x s = .ok (s.memory.wordAt a) s := by
  rw [readVar, bind_of_ok (addressOf_of_some hx), readWord_of_le h]

theorem writeVar_of_lookup {x : String} {v : Int} {s : State} {a : Nat}
    (hx : s.vars.lookup x = some a) (h : a + 4 ≤ s.memory.size) :
    writeVar x v s = .ok () { s with memory := s.memory.setWord a (Word.ofInt v) } := by
  rw [writeVar, bind_of_ok (addressOf_of_some hx), writeWord_of_le h]

theorem grows_allocate (x : String) (s : State) :
    s.Grows
      { s with memory := s.memory.allocateWord, vars := s.vars ++ [(x, s.memory.size)] } where
  size_le := by simp
  kept y a h := by simp [List.lookup_append, h]
  fresh y a h := by
    simp only [List.lookup_append] at h
    cases hy : s.vars.lookup y with
    | some b => exact .inl (by simpa [hy] using h)
    | none =>
        right
        by_cases hyx : y = x
        · subst hyx
          simp [hy] at h
          simp [← h]
        · simp [hy, List.lookup_cons, beq_false_of_ne hyx] at h

theorem local_addressOf (x : String) : Local (addressOf x) := by
  constructor
  · intro s c
    cases h : s.vars.lookup x with
    | some a => rw [addressOf_of_some h, addressOf_of_some (s := s.withControl c) h]; rfl
    | none => rw [addressOf_of_none h, addressOf_of_none (s := s.withControl c) h]; rfl
  · intro s
    cases h : s.vars.lookup x with
    | some a => rw [addressOf_of_some h]; exact .refl s
    | none => rw [addressOf_of_none h]; exact grows_allocate x s

theorem local_readVar (x : String) : Local (readVar x) :=
  .bind (local_addressOf x) fun a => local_readWord a

theorem local_writeVar (x : String) (v : Int) : Local (writeVar x v) :=
  .bind (local_addressOf x) fun a => local_writeWord a v

theorem local_readVars (xs : List String) : Local (readVars xs) := by
  induction xs with
  | nil => exact .pure []
  | cons x xs ih =>
      exact .bind (local_readVar x) fun v => .bind ih fun vs => .pure (v :: vs)

theorem local_writeVars (xs : List String) (vs : List Nat) : Local (writeVars xs vs) := by
  induction xs generalizing vs with
  | nil => exact .pure ()
  | cons x xs ih => exact .bind (local_writeVar x _) fun _ => ih vs.tail

/-! ## Output, random numbers and drawing -/

theorem local_write (sink : Sink) (text : String) : Local (write sink text) := by
  have accept : Local (modify fun s => { s with writes := s.writes.push text } : Exec Unit) :=
    .modify (fun _ _ => rfl) fun _ => .of_eq rfl rfl
  cases sink with
  | steady => exact accept
  | failing writes failure =>
      refine .get_bind (fun _ => ?_) fun _ _ => rfl
      split
      · exact accept
      · exact .fail _

theorem local_writeAll (sink : Sink) (texts : List String) : Local (writeAll sink texts) := by
  induction texts with
  | nil => exact .pure ()
  | cons t ts ih => exact .bind (local_write sink t) fun _ => ih

theorem local_draw (low high : Nat) : Local (draw low high) :=
  ⟨fun _ _ => rfl, fun _ => .of_eq rfl rfl⟩

theorem local_perform (c : DrawCommand) : Local (perform c) :=
  .bind ⟨fun _ _ => rfl, fun _ => .of_eq rfl rfl⟩ fun _ => .lift _

end Exec

/-! ## Built-in functions -/

namespace Builtin

open Exec

theorem local_command (c : DrawCommand) : Local (command c) :=
  .bind (local_perform c) fun _ => .pure 0

theorem local_body (sink : Sink) (b : Builtin) (args : List Nat) : Local (b.body sink args) := by
  unfold body
  split
  case h_1 => exact .bind (local_writeAll _ _) fun _ => .pure 0
  case h_2 => exact .bind (local_writeAll _ _) fun _ => .pure 0
  case h_3 => exact .bind (local_writeAll _ _) fun _ => .pure 0
  case h_4 =>
    split
    · exact .bind (local_write _ _) fun _ => .pure 0
    · exact .fail _
  case h_5 => exact .throw _
  case h_6 => exact local_draw _ _
  case h_7 =>
    split
    · exact local_draw _ _
    · exact .fail _
  case h_13 =>
    refine .bind (local_perform _) fun reply => ?_
    split <;> exact .pure _
  case h_16 =>
    refine .bind (local_perform _) fun reply => ?_
    split
    · exact .throw _
    · exact .pure 0
  case h_17 =>
    split
    · exact .fail _
    · refine .get_bind (fun s => .bind (.lift _) fun data => ?_) fun _ _ => rfl
      refine .bind (local_perform _) fun reply => ?_
      split <;> exact .pure _
  case h_19 => exact .pure 0
  all_goals apply local_command

theorem local_invoke (sink : Sink) (b : Builtin) (args : List Nat) :
    Local (b.invoke sink args) :=
  .bind (.lift _) fun _ => local_body sink b args

end Builtin

end BrownLang
