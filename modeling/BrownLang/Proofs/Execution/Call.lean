import BrownLang.Proofs.Execution.Evaluation

/-!
# What a call consists of

A call of a function of the program prepares the variables, goes to the head
of the function, executes its body, concludes with the variables, and goes
back.  Preparing and concluding are local; all other calls are local
altogether.
-/

namespace BrownLang

namespace State

def entered (s : State) (f : String) (loc : Option Location) (entry : Nat) : State :=
  { s with
    calls := ⟨f, s.nextFrame, loc⟩ :: s.calls
    nextFrame := s.nextFrame + 1
    ip := entry }

def returned (s : State) (home : Nat) : State :=
  match s.calls with
  | [] => { s with ip := home }
  | f :: rest =>
    { s with calls := rest, journal := s.journal.dropFrame f.id, ip := home }

@[simp] theorem store_entered (s : State) (f : String) (loc : Option Location) (entry : Nat) :
    (s.entered f loc entry).store = s.store := rfl

@[simp] theorem store_returned (s : State) (home : Nat) :
    (s.returned home).store = s.store := by
  unfold returned
  split <;> rfl

end State

namespace Machine

variable (m : Machine)

def preserved (params : List String) (preserve : Bool) : List String :=
  if preserve then params else []

def prepare (params : List String) (preserve : Bool) (args : List Nat) : Exec (List Nat) := do
  let saved ← Exec.readVars (preserved params preserve)
  Exec.writeVars params args
  pure saved

def conclude (params : List String) (preserve : Bool) (saved : List Nat) : Exec Nat := do
  let result ← Exec.readVar returnVariable
  Exec.writeVars (preserved params preserve) saved
  pure result

def instrAt (i : Nat) : Option Instr := (m.program.code[i]?).map CodeLine.instr

def locAt (i : Nat) : Option Location := m.program.code[i]?.bind CodeLine.loc

theorem local_prepare (params : List String) (preserve : Bool) (args : List Nat) :
    Exec.Local (prepare params preserve args) :=
  .bind (Exec.local_readVars _) fun saved =>
    .bind (Exec.local_writeVars _ _) fun _ => .pure saved

theorem local_conclude (params : List String) (preserve : Bool) (saved : List Nat) :
    Exec.Local (conclude params preserve saved) :=
  .bind (Exec.local_readVar _) fun v => .bind (Exec.local_writeVars _ _) fun _ => .pure v

theorem enter_eq (body : Exec Unit) (f : String) (entry : Nat) (params : List String)
    (preserve : Bool) (args : List Nat) (s : State) :
    m.enter body f entry params preserve args s =
      (do
        let saved ← prepare params preserve args
        modify fun t => t.entered f (m.locAt s.ip) entry
        body
        let result ← conclude params preserve saved
        modify fun t => t.returned s.ip
        pure result : Exec Nat) s := by
  have push : (do
      Exec.pushFrame f (m.locAt s.ip)
      Exec.jumpTo entry : Exec Unit) = modify fun t => t.entered f (m.locAt s.ip) entry := rfl
  have pop : (do
      Exec.popFrame
      Exec.jumpTo s.ip : Exec Unit) = modify fun t => t.returned s.ip := by
    funext t
    change EStateM.Result.ok () _ = EStateM.Result.ok () _
    cases h : t.calls <;> simp [State.returned, h]
  change (do
      let saved ← if preserve then Exec.readVars params else pure []
      Exec.writeVars params args
      Exec.pushFrame f (m.locAt s.ip)
      Exec.jumpTo entry
      body
      let result ← Exec.readVar returnVariable
      if preserve then Exec.writeVars params saved
      Exec.popFrame
      Exec.jumpTo s.ip
      pure result : Exec Nat) s = _
  rw [← push, ← pop]
  cases preserve <;> simp [prepare, conclude, preserved, Exec.readVars, Exec.writeVars]

/-- Calling `f` with `args` leads to the function with the head at `entry`. -/
structure Resolves (f : String) (args : List Nat) (entry : Nat) (params : List String)
    (preserve : Bool) : Prop where
  not_builtin : Builtin.ofName? f = none
  label : m.program.labels.lookup f = some entry
  head : ∃ g, m.instrAt entry = some (.funEntry g params preserve)
  count : ¬ (m.options.strictArgs ∧ args.length ≠ params.length)

theorem call_of_resolves {f : String} {args : List Nat} {entry : Nat} {params : List String}
    {preserve : Bool} (h : m.Resolves f args entry params preserve) (body : Exec Unit) :
    m.call body f args = m.enter body f entry params preserve args := by
  obtain ⟨g, hg⟩ := h.head
  simp only [call, h.not_builtin, callFunction, h.label]
  rw [show (m.program.code[entry]?).map CodeLine.instr = _ from hg]
  simp only [if_neg h.count]

theorem call_fails_or_resolves {f : String} (hb : Builtin.ofName? f = none) (args : List Nat) :
    (∃ fault, ∀ body, m.call body f args = Exec.fail fault) ∨
      ∃ entry params preserve, m.Resolves f args entry params preserve := by
  cases hl : m.program.labels.lookup f with
  | none =>
      exact .inl ⟨.functionNotFound f, fun _ => by simp only [call, hb, callFunction, hl]⟩
  | some entry =>
      by_cases hhead : ∃ g params preserve, m.instrAt entry = some (.funEntry g params preserve)
      · obtain ⟨g, params, preserve, hg⟩ := hhead
        by_cases hcount : m.options.strictArgs ∧ args.length ≠ params.length
        · refine .inl ⟨.arity f params.length args.length, fun _ => ?_⟩
          simp only [call, hb, callFunction, hl]
          rw [show (m.program.code[entry]?).map CodeLine.instr = _ from hg]
          simp only [if_pos hcount]
        · exact .inr ⟨entry, params, preserve, hb, hl, ⟨g, hg⟩, hcount⟩
      · refine .inl ⟨.notAFunction f, fun _ => ?_⟩
        simp only [call, hb, callFunction, hl]
        split
        next g params preserve hg => exact absurd ⟨g, params, preserve, hg⟩ hhead
        next => rfl

theorem call_local_or_resolves (f : String) (args : List Nat) :
    (∃ x, Exec.Local x ∧ ∀ body, m.call body f args = x) ∨
      ∃ entry params preserve, m.Resolves f args entry params preserve := by
  cases hb : Builtin.ofName? f with
  | some b =>
      exact .inl ⟨_, Builtin.local_invoke m.options.sink b args, fun _ => by simp only [call, hb]⟩
  | none =>
      rcases m.call_fails_or_resolves hb args with ⟨fault, hfails⟩ | hres
      · exact .inl ⟨_, .fail fault, hfails⟩
      · exact .inr hres

/-- Calling `f` with `args` in `s`, the body of a function begins in `u`. -/
def Enters (f : String) (args : List Nat) (s u : State) : Prop :=
  ∃ entry params preserve saved t,
    m.Resolves f args entry params preserve ∧
    prepare params preserve args s = .ok saved t ∧
    u = t.entered f (m.locAt s.ip) entry

end Machine

end BrownLang
