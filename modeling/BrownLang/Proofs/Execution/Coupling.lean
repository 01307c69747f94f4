import BrownLang.Proofs.Execution.Call
import BrownLang.Proofs.Loading.Mentions

/-!
# Coupled machines

Two machines run one program, with options of their own.  A relation between
actions that goes through sequences, and that relates what the one and the
other machine do to the state at a time, relates all that they do: evaluating
an expression, executing an instruction, making a call, and running a loop.
Where both are the same machine, this is a way to show a property of all its
actions.
-/

namespace BrownLang

/-- A relation between actions that goes through sequences. -/
structure Coupling where
  Rel : {α : Type} → Exec α → Exec α → Prop
  pure : ∀ {α : Type} (a : α), Rel (pure a) (pure a)
  bind : ∀ {α β : Type} {x y : Exec α} {f g : α → Exec β}, Rel x y →
    (∀ a, Rel (f a) (g a)) → Rel (x >>= f) (y >>= g)

namespace Exec

def here : Exec Nat := do return (← get).ip

def readBytes (a n : Nat) : Exec (List UInt8) := do
  lift (((← get).memory.readBytes a n).mapError .memory)

def createSprite (a w h color : Nat) : Exec Nat := do
  let data ← readBytes a (w / 8 * h)
  match ← perform (.createSprite data w h color) with
  | .index n => pure n
  | _ => pure 0

end Exec

def DrawCommand.Plain (c : DrawCommand) : Prop :=
  ∀ data w h color, c ≠ .createSprite data w h color

theorem Coupling.rel_createSprite (C : Coupling)
    (hread : ∀ a n, C.Rel (Exec.readBytes a n) (Exec.readBytes a n))
    (hperform : ∀ c, C.Rel (Exec.perform c) (Exec.perform c)) (a w h color : Nat) :
    C.Rel (Exec.createSprite a w h color) (Exec.createSprite a w h color) := by
  refine C.bind (hread a (w / 8 * h)) fun data => C.bind (hperform _) fun reply => ?_
  cases reply with
  | index n => exact C.pure n
  | done => exact C.pure 0
  | flag b => exact C.pure 0

namespace Machine

variable (m : Machine)

/-! ## Actions in terms of the current index -/

theorem step_eq_here (call : Caller) : m.step call = (do
    match m.program.code[← Exec.here]? with
    | none => pure ()
    | some line =>
      Exec.record m.options.verbose line
      m.execute call line.instr
      Exec.jumpTo ((← Exec.here) + 1)) :=
  rfl

theorem enter_eq_here (body : Exec Unit) (f : String) (entry : Nat) (params : List String)
    (preserve : Bool) (args : List Nat) :
    m.enter body f entry params preserve args = (do
      let home ← Exec.here
      let saved ← prepare params preserve args
      Exec.pushFrame f (m.locAt home)
      Exec.jumpTo entry
      body
      let result ← conclude params preserve saved
      Exec.popFrame
      Exec.jumpTo home
      pure result) := by
  cases preserve <;>
    simp [enter, prepare, conclude, preserved, Exec.readVars, Exec.writeVars, Exec.here, locAt]

theorem untilReturn_succ (n : Nat) : m.untilReturn (n + 1) = (do
    match m.instrAt (← Exec.here) with
    | none => throw (.exit 0)
    | some .funReturn => pure ()
    | some _ =>
      m.step (m.caller n)
      m.untilReturn n) :=
  rfl

theorem untilEnd_succ (n : Nat) : m.untilEnd (n + 1) = (do
    if (← Exec.here) < m.program.code.size then
      m.step (m.caller n)
      m.untilEnd n) :=
  rfl

end Machine

theorem Machine.Resolves.params_subset {m : Machine} {f : String} {args : List Nat} {entry : Nat}
    {params : List String} {preserve : Bool} (h : m.Resolves f args entry params preserve) :
    params ⊆ returnVariable :: m.program.vars := by
  obtain ⟨g, hg⟩ := h.head
  obtain ⟨line, hline, hhead⟩ := Option.map_eq_some_iff.mp hg
  exact List.subset_cons_of_subset _ (Program.mem_of_params hline hhead)

/-- The faults that have to do with what the program says, and not with what is in the state. -/
inductive Program.Refuses (p : Program) (strict : Bool) : Fault → Prop
  | label {l} : l ∈ p.targets → p.labels.lookup l = none → Refuses p strict (.labelNotFound l)
  | function {f} : Refuses p strict (.functionNotFound f)
  | notAFunction {f} : Refuses p strict (.notAFunction f)
  | arity {f wanted given} : strict → Refuses p strict (.arity f wanted given)
  | builtinArity {f accepted given} : Refuses p strict (.builtinArity f accepted given)
  | character {v} : Refuses p strict (.invalidCharacter v)
  | range {low high} : Refuses p strict (.emptyRange low high)
  | spriteWidth {w} : Refuses p strict (.canvas (.spriteWidth w))

namespace Coupling

open Exec

/-- What two machines for the program `p` do at a time is related. -/
structure Covers (C : Coupling) (p : Program) (o o' : Options) : Prop where
  strict_eq : o'.strictArgs = o.strictArgs
  addressOf : ∀ x ∈ returnVariable :: p.vars, C.Rel (addressOf x) (addressOf x)
  readWord : ∀ a, C.Rel (readWord a) (readWord a)
  readByte : ∀ a, C.Rel (readByte a) (readByte a)
  writeWord : ∀ a v, C.Rel (writeWord a v) (writeWord a v)
  writeByte : ∀ a v, C.Rel (writeByte a v) (writeByte a v)
  apply : ∀ op ∈ p.operators, ∀ a b, C.Rel (lift (op.apply a b)) (lift (op.apply a b))
  write : ∀ text, C.Rel (write o.sink text) (write o'.sink text)
  draw : ∀ low high, C.Rel (draw low high) (draw low high)
  perform : ∀ c : DrawCommand, c.Plain → C.Rel (perform c) (perform c)
  createSprite : ∀ a w h color, w % 8 = 0 →
    C.Rel (createSprite a w h color) (createSprite a w h color)
  refuse : ∀ {α : Type} f, p.Refuses o.strictArgs f → C.Rel (fail f : Exec α) (fail f)
  exit : ∀ {α : Type}, C.Rel (throw (.exit 0) : Exec α) (throw (.exit 0))
  unfinished : C.Rel (throw .unfinished : Exec Unit) (throw .unfinished)
  here : C.Rel here here
  jumpTo : ∀ i, C.Rel (jumpTo i) (jumpTo i)
  record : ∀ line, C.Rel (record o.verbose line) (record o'.verbose line)
  pushFrame : ∀ f loc, C.Rel (pushFrame f loc) (pushFrame f loc)
  popFrame : C.Rel popFrame popFrame

namespace Covers

theorem of_refl {C : Coupling} (hrefl : ∀ {α : Type} (x : Exec α), C.Rel x x) (p : Program)
    (o : Options) : C.Covers p o o where
  strict_eq := rfl
  addressOf _ _ := hrefl _
  readWord _ := hrefl _
  readByte _ := hrefl _
  writeWord _ _ := hrefl _
  writeByte _ _ := hrefl _
  apply _ _ _ _ := hrefl _
  write _ := hrefl _
  draw _ _ := hrefl _
  perform _ _ := hrefl _
  createSprite _ _ _ _ _ := hrefl _
  refuse _ _ := hrefl _
  exit := hrefl _
  unfinished := hrefl _
  here := hrefl _
  jumpTo _ := hrefl _
  record _ := hrefl _
  pushFrame _ _ := hrefl _
  popFrame := hrefl _

theorem preserved_subset {params xs : List String} (hparams : params ⊆ xs) (preserve : Bool) :
    Machine.preserved params preserve ⊆ xs := by
  cases preserve
  · exact List.nil_subset xs
  · exact hparams

variable {C : Coupling} {p : Program} {o o' : Options}

section

variable (h : C.Covers p o o')

include h

/-! ## Variables -/

theorem readVar {x : String} (hx : x ∈ returnVariable :: p.vars) :
    C.Rel (Exec.readVar x) (Exec.readVar x) :=
  C.bind (h.addressOf x hx) h.readWord

theorem writeVar {x : String} (hx : x ∈ returnVariable :: p.vars) (v : Int) :
    C.Rel (Exec.writeVar x v) (Exec.writeVar x v) :=
  C.bind (h.addressOf x hx) fun a => h.writeWord a v

theorem readVars {xs : List String} (hxs : xs ⊆ returnVariable :: p.vars) :
    C.Rel (Exec.readVars xs) (Exec.readVars xs) := by
  induction xs with
  | nil => exact C.pure []
  | cons x xs ih =>
      rw [List.cons_subset] at hxs
      exact C.bind (h.readVar hxs.1) fun v => C.bind (ih hxs.2) fun vs => C.pure (v :: vs)

theorem writeVars {xs : List String} (hxs : xs ⊆ returnVariable :: p.vars)
    (vs : List Nat) : C.Rel (Exec.writeVars xs vs) (Exec.writeVars xs vs) := by
  induction xs generalizing vs with
  | nil => exact C.pure ()
  | cons x xs ih =>
      rw [List.cons_subset] at hxs
      exact C.bind (h.writeVar hxs.1 _) fun _ => ih hxs.2 vs.tail

/-! ## Built-in functions -/

theorem writeAll (texts : List String) :
    C.Rel (Exec.writeAll o.sink texts) (Exec.writeAll o'.sink texts) := by
  induction texts with
  | nil => exact C.pure ()
  | cons t ts ih => exact C.bind (h.write t) fun _ => ih

theorem command {c : DrawCommand} (hc : c.Plain) :
    C.Rel (Builtin.command c) (Builtin.command c) :=
  C.bind (h.perform c hc) fun _ => C.pure 0

theorem body (b : Builtin) (args : List Nat) :
    C.Rel (b.body o.sink args) (b.body o'.sink args) := by
  unfold Builtin.body
  split
  case h_1 => exact C.bind (h.writeAll _) fun _ => C.pure 0
  case h_2 => exact C.bind (h.writeAll _) fun _ => C.pure 0
  case h_3 => exact C.bind (h.writeAll _) fun _ => C.pure 0
  case h_4 =>
    split
    · exact C.bind (h.write _) fun _ => C.pure 0
    · exact h.refuse _ .character
  case h_5 => exact h.exit
  case h_6 => exact h.draw _ _
  case h_7 =>
    split
    · exact h.draw _ _
    · exact h.refuse _ .range
  case h_13 =>
    refine C.bind (h.perform _ nofun) fun reply => ?_
    split <;> exact C.pure _
  case h_16 =>
    refine C.bind (h.perform _ nofun) fun reply => ?_
    split
    · exact h.exit
    · exact C.pure 0
  case h_17 addr w height color =>
    split
    next => exact h.refuse _ .spriteWidth
    next hw => exact h.createSprite addr w height color (Decidable.not_not.mp hw)
  case h_19 => exact C.pure 0
  all_goals exact h.command nofun

theorem checkCount (f : String) (accepted : Option (List Int)) (given : Nat) :
    C.Rel (lift (Builtin.checkCount f accepted given))
      (lift (Builtin.checkCount f accepted given)) := by
  unfold Builtin.checkCount
  split
  · exact C.pure ()
  · split
    · exact C.pure ()
    · exact h.refuse _ .builtinArity

theorem invoke (b : Builtin) (args : List Nat) :
    C.Rel (b.invoke o.sink args) (b.invoke o'.sink args) :=
  C.bind (h.checkCount _ _ _) fun _ => h.body b args

end

/-! ## Expressions -/

mutual

theorem eval (h : C.Covers p o o') {call call' : Caller}
    (hcall : ∀ f args, C.Rel (call f args) (call' f args)) {e : Expr} (he : p.Mentions e) :
    C.Rel (e.eval call) (e.eval call') := by
  match e with
  | .lit n => exact C.pure n
  | .var x => exact h.readVar (List.mem_cons_of_mem _ (he.vars (.head _)))
  | .addr x => exact h.addressOf x (List.mem_cons_of_mem _ (he.vars (.head _)))
  | .word a => exact C.bind (eval h hcall he.word) h.readWord
  | .byte a => exact C.bind (eval h hcall he.byte) h.readByte
  | .bin op l r =>
      refine C.bind (eval h hcall he.left) fun a => C.bind (eval h hcall he.right) fun b => ?_
      exact h.apply op (he.operators (.head _)) a b
  | .call f args => exact C.bind (evalAll h hcall he.args) (hcall f)

theorem evalAll (h : C.Covers p o o') {call call' : Caller}
    (hcall : ∀ f args, C.Rel (call f args) (call' f args)) {es : List Expr}
    (hes : p.MentionsAll es) : C.Rel (Expr.evalAll call es) (Expr.evalAll call' es) := by
  match es with
  | [] => exact C.pure []
  | e :: es =>
      refine C.bind (eval h hcall hes.head) fun v => ?_
      exact C.bind (evalAll h hcall hes.tail) fun vs => C.pure (v :: vs)

end

section

variable (h : C.Covers p o o')

include h

/-! ## Instructions -/

theorem jump {l : String} (hl : l ∈ p.targets) :
    C.Rel (Machine.jump ⟨p, o⟩ l) (Machine.jump ⟨p, o'⟩ l) := by
  unfold Machine.jump
  cases hi : p.labels.lookup l with
  | none => exact h.refuse _ (.label hl hi)
  | some i => exact h.jumpTo i

theorem effect {k : Nat} {line : CodeLine} (hline : p.code[k]? = some line) (vs : List Nat) :
    C.Rel (Machine.effect ⟨p, o⟩ line.instr vs) (Machine.effect ⟨p, o'⟩ line.instr vs) := by
  have hv : ∀ x ∈ line.instr.binds, x ∈ returnVariable :: p.vars := fun x hx =>
    List.mem_cons_of_mem _ (Program.mem_vars hline (List.mem_append_left _ hx))
  have ht : ∀ l, line.instr.target? = some l → l ∈ p.targets := fun l =>
    Program.mem_targets hline
  unfold Machine.effect
  split
  case h_1 x _ v hi => exact h.writeVar (hv x (by rw [hi]; exact .head _)) v
  case h_2 => exact h.writeWord _ _
  case h_3 => exact h.writeByte _ _
  case h_4 l hi => exact h.jump (ht l (by rw [hi]; rfl))
  case h_5 c l v hi =>
    split
    · exact h.jump (ht l (by rw [hi]; rfl))
    · exact C.pure ()
  case h_6 => exact C.pure ()

section

variable {call call' : Caller} (hcall : ∀ f args, C.Rel (call f args) (call' f args))

include hcall

theorem execute {k : Nat} {line : CodeLine} (hline : p.code[k]? = some line) :
    C.Rel (Machine.execute ⟨p, o⟩ call line.instr) (Machine.execute ⟨p, o'⟩ call' line.instr) := by
  rw [Machine.execute_eq_effect, Machine.execute_eq_effect]
  exact C.bind (h.evalAll hcall (Program.mentions_operands hline)) (h.effect hline)

theorem step : C.Rel (Machine.step ⟨p, o⟩ call) (Machine.step ⟨p, o'⟩ call') := by
  rw [Machine.step_eq_here, Machine.step_eq_here]
  refine C.bind h.here fun i => ?_
  dsimp only
  cases hline : p.code[i]? with
  | none => exact C.pure ()
  | some line =>
      refine C.bind (h.record line) fun _ => C.bind (h.execute hcall hline) fun _ => ?_
      exact C.bind h.here fun ip => h.jumpTo (ip + 1)

end

/-! ## Calls and loops -/

theorem prepare {params : List String} (hparams : params ⊆ returnVariable :: p.vars)
    (preserve : Bool) (args : List Nat) :
    C.Rel (Machine.prepare params preserve args) (Machine.prepare params preserve args) :=
  C.bind (h.readVars (preserved_subset hparams preserve)) fun saved =>
    C.bind (h.writeVars hparams args) fun _ => C.pure saved

theorem conclude {params : List String} (hparams : params ⊆ returnVariable :: p.vars)
    (preserve : Bool) (saved : List Nat) :
    C.Rel (Machine.conclude params preserve saved) (Machine.conclude params preserve saved) :=
  C.bind (h.readVar (.head _)) fun v =>
    C.bind (h.writeVars (preserved_subset hparams preserve) saved) fun _ => C.pure v

section

variable {body body' : Exec Unit} (hbody : C.Rel body body')

include hbody

theorem enter {f : String} {k entry : Nat} {line : CodeLine} {g : String} {params : List String}
    {preserve : Bool} (hline : p.code[k]? = some line)
    (hhead : line.instr = .funEntry g params preserve) (args : List Nat) :
    C.Rel (Machine.enter ⟨p, o⟩ body f entry params preserve args)
      (Machine.enter ⟨p, o'⟩ body' f entry params preserve args) := by
  have hparams : params ⊆ returnVariable :: p.vars :=
    List.subset_cons_of_subset _ (Program.mem_of_params hline hhead)
  rw [Machine.enter_eq_here, Machine.enter_eq_here]
  refine C.bind h.here fun home => C.bind (h.prepare hparams preserve args) fun saved => ?_
  refine C.bind (h.pushFrame _ _) fun _ => C.bind (h.jumpTo entry) fun _ => ?_
  refine C.bind hbody fun _ => C.bind (h.conclude hparams preserve saved) fun result => ?_
  exact C.bind h.popFrame fun _ => C.bind (h.jumpTo home) fun _ => C.pure result

theorem callFunction (f : String) (args : List Nat) :
    C.Rel (Machine.callFunction ⟨p, o⟩ body f args)
      (Machine.callFunction ⟨p, o'⟩ body' f args) := by
  unfold Machine.callFunction
  cases hf : p.labels.lookup f with
  | none => exact h.refuse _ .function
  | some entry =>
      dsimp only
      cases hline : p.code[entry]? with
      | none => exact h.refuse _ .notAFunction
      | some line =>
          cases hhead : line.instr with
          | funEntry g params preserve =>
              simp only [Option.map_some, hhead, h.strict_eq]
              split
              next hcount => exact h.refuse _ (.arity hcount.1)
              next => exact h.enter hbody hline hhead args
          | _ =>
              simp only [Option.map_some, hhead]
              exact h.refuse _ .notAFunction

theorem call (f : String) (args : List Nat) :
    C.Rel (Machine.call ⟨p, o⟩ body f args) (Machine.call ⟨p, o'⟩ body' f args) := by
  unfold Machine.call
  cases Builtin.ofName? f with
  | some b => exact h.invoke b args
  | none => exact h.callFunction hbody f args

end

theorem untilReturn (n : Nat) :
    C.Rel (Machine.untilReturn ⟨p, o⟩ n) (Machine.untilReturn ⟨p, o'⟩ n) := by
  induction n with
  | zero => exact h.unfinished
  | succ n ih =>
      rw [Machine.untilReturn_succ, Machine.untilReturn_succ]
      refine C.bind h.here fun i => ?_
      dsimp only [Machine.instrAt]
      split
      · exact h.exit
      · exact C.pure ()
      · exact C.bind (h.step (h.call ih)) fun _ => ih

theorem caller (n : Nat) (f : String) (args : List Nat) :
    C.Rel (Machine.caller ⟨p, o⟩ n f args) (Machine.caller ⟨p, o'⟩ n f args) :=
  h.call (h.untilReturn n) f args

theorem untilEnd (n : Nat) :
    C.Rel (Machine.untilEnd ⟨p, o⟩ n) (Machine.untilEnd ⟨p, o'⟩ n) := by
  induction n with
  | zero => exact h.unfinished
  | succ n ih =>
      rw [Machine.untilEnd_succ, Machine.untilEnd_succ]
      refine C.bind h.here fun i => ?_
      dsimp only
      split
      · exact C.bind (h.step (h.caller n)) fun _ => ih
      · exact C.pure ()

end

end Covers

end Coupling

end BrownLang
