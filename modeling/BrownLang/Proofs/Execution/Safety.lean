import Mathlib.Data.List.Basic
import BrownLang.Proofs.Execution.Coupling
import BrownLang.Proofs.Execution.Whereabouts
import BrownLang.Proofs.Syntax.WellFormed

/-!
# What can go wrong in a run

A program that was read from a text goes wrong only in ways that the language
has a name for.  Three things that the loader does not look at are needed for
this: what the reader makes is well formed, lowering adds no jump that leads
nowhere, and a run looks into the code only where there is some.
-/

namespace BrownLang

open Token (isName)

/-! ## Well-formed files -/

namespace Expr

mutual

theorem isKnown_of_wellFormed {e : Expr} (h : e.wellFormed) {op : BinOp}
    (hop : op ∈ e.operators) : op.isKnown := by
  match e with
  | .lit _ | .var _ | .addr _ => cases hop
  | .word a => exact isKnown_of_wellFormed (e := a) h hop
  | .byte a => exact isKnown_of_wellFormed (e := a) h hop
  | .bin o l r =>
      simp only [wellFormed, Bool.and_eq_true] at h
      simp only [operators, List.cons_append, List.mem_cons, List.mem_append] at hop
      rcases hop with rfl | hop | hop
      · exact h.1.1
      · exact isKnown_of_wellFormed h.1.2 hop
      · exact isKnown_of_wellFormed h.2 hop
  | .call f args =>
      simp only [wellFormed, Bool.and_eq_true] at h
      exact isKnown_of_wellFormedAll h.2 hop

theorem isKnown_of_wellFormedAll {es : List Expr} (h : wellFormedAll es) {op : BinOp}
    (hop : op ∈ operatorsAll es) : op.isKnown := by
  match es with
  | [] => cases hop
  | e :: es =>
      simp only [wellFormedAll, Bool.and_eq_true] at h
      rcases List.mem_append.mp hop with hop | hop
      · exact isKnown_of_wellFormed h.1 hop
      · exact isKnown_of_wellFormedAll h.2 hop

end

end Expr

theorem Target.isKnown_of_wellFormed {t : Target} (h : t.wellFormed) {op : BinOp}
    (hop : op ∈ t.operators) : op.isKnown := by
  cases t with
  | var x => cases hop
  | word a => exact Expr.isKnown_of_wellFormed h hop
  | byte a => exact Expr.isKnown_of_wellFormed h hop

namespace Stmt

mutual

theorem isKnown_of_wellFormed {s : Stmt} (h : s.wellFormed) {op : BinOp}
    (hop : op ∈ s.operators) : op.isKnown := by
  match s with
  | .goto .. | .label .. => cases hop
  | .assign t e _ =>
      simp only [wellFormed, Bool.and_eq_true] at h
      rcases List.mem_append.mp hop with hop | hop
      · exact t.isKnown_of_wellFormed h.1 hop
      · exact e.isKnown_of_wellFormed h.2 hop
  | .eval e _ =>
      simp only [wellFormed, Bool.and_eq_true] at h
      exact e.isKnown_of_wellFormed h.2 hop
  | .whileLoop c body _ | .ifThen c body _ =>
      simp only [wellFormed, Bool.and_eq_true] at h
      rcases List.mem_append.mp hop with hop | hop
      · exact c.isKnown_of_wellFormed h.1 hop
      · exact isKnown_of_wellFormedAll h.2 hop
  | .ifElse c yes no _ =>
      simp only [wellFormed, Bool.and_eq_true] at h
      simp only [operators, List.mem_append] at hop
      rcases hop with (hop | hop) | hop
      · exact c.isKnown_of_wellFormed h.1.1 hop
      · exact isKnown_of_wellFormedAll h.1.2 hop
      · exact isKnown_of_wellFormedAll h.2 hop
  | .forLoop x a b body _ =>
      simp only [wellFormed, Bool.and_eq_true] at h
      simp only [operators, List.mem_append] at hop
      rcases hop with (hop | hop) | hop
      · exact a.isKnown_of_wellFormed h.1.1.2 hop
      · exact b.isKnown_of_wellFormed h.1.2 hop
      · exact isKnown_of_wellFormedAll h.2 hop
  | .function f ps keep body _ =>
      simp only [wellFormed, Bool.and_eq_true] at h
      exact isKnown_of_wellFormedAll h.2 hop

theorem isKnown_of_wellFormedAll {b : Block} (h : wellFormedAll b) {op : BinOp}
    (hop : op ∈ operatorsAll b) : op.isKnown := by
  match b with
  | [] => cases hop
  | s :: rest =>
      simp only [wellFormedAll, Bool.and_eq_true] at h
      rcases List.mem_append.mp hop with hop | hop
      · exact isKnown_of_wellFormed h.1 hop
      · exact isKnown_of_wellFormedAll h.2 hop

end

mutual

theorem isName_of_mem_gotos {s : Stmt} (h : s.wellFormed) {l : String} (hl : l ∈ s.gotos) :
    isName l := by
  match s with
  | .assign .. | .label .. | .eval .. => cases hl
  | .goto x _ =>
      rw [List.mem_singleton.mp hl]
      exact h
  | .whileLoop _ body _ | .ifThen _ body _ | .forLoop _ _ _ body _ | .function _ _ _ body _ =>
      simp only [wellFormed, Bool.and_eq_true] at h
      exact isName_of_mem_gotosAll h.2 hl
  | .ifElse c yes no _ =>
      simp only [wellFormed, Bool.and_eq_true] at h
      rcases List.mem_append.mp hl with hl | hl
      · exact isName_of_mem_gotosAll h.1.2 hl
      · exact isName_of_mem_gotosAll h.2 hl

theorem isName_of_mem_gotosAll {b : Block} (h : wellFormedAll b) {l : String}
    (hl : l ∈ gotosAll b) : isName l := by
  match b with
  | [] => cases hl
  | s :: rest =>
      simp only [wellFormedAll, Bool.and_eq_true] at h
      rcases List.mem_append.mp hl with hl | hl
      · exact isName_of_mem_gotos h.1 hl
      · exact isName_of_mem_gotosAll h.2 hl

end

end Stmt

theorem ne_madeLabel_of_isName {l : String} (h : isName l) (k : Nat) : l ≠ madeLabel k := by
  rintro rfl
  have hlist : (madeLabel k).toList = '$' :: ("internal_".toList ++ (Text.decimal k).toList) := by
    simp [madeLabel]
  simp [isName, hlist, Token.isNameStart] at h

/-! ## Faults -/

inductive CanvasFault.Permitted : CanvasFault → Prop
  | width {w} : Permitted (.spriteWidth w)
  | sprite {i} : Permitted (.noSprite i)
  | key {c} : Permitted (.invalidKey c)

/--
The faults that a program can cause, where `gotos` are the labels that its
source goes to, and `strict` says whether arguments are counted.
-/
inductive Fault.Permitted (gotos : List String) (strict : Bool) : Fault → Prop
  | label {l} : l ∈ gotos → (∀ k, l ≠ madeLabel k) → Permitted gotos strict (.labelNotFound l)
  | function {f} : Permitted gotos strict (.functionNotFound f)
  | notAFunction {f} : Permitted gotos strict (.notAFunction f)
  | arity {f wanted given} : strict → Permitted gotos strict (.arity f wanted given)
  | builtinArity {f accepted given} : Permitted gotos strict (.builtinArity f accepted given)
  | range {low high} : Permitted gotos strict (.emptyRange low high)
  | character {v} : Permitted gotos strict (.invalidCharacter v)
  | divisionByZero : Permitted gotos strict .divisionByZero
  | canvas {e} : e.Permitted → Permitted gotos strict (.canvas e)
  | memory {e} : Permitted gotos strict (.memory e)

inductive Halt.Permitted (gotos : List String) (strict : Bool) : Halt → Prop
  | fault {f} : f.Permitted gotos strict → Permitted gotos strict (.fault f)
  | exit : Permitted gotos strict (.exit 0)
  | unfinished : Permitted gotos strict .unfinished

/-! ## Drawing -/

theorem Sprites.permitted_of_find {sprites : Sprites} {index : Int} {e : CanvasFault}
    (h : sprites.find index = .error e) : e.Permitted := by
  unfold find at h
  repeat' split at h
  all_goals cases h
  all_goals exact .sprite

namespace Canvas

def Frameless (c : Canvas) : Prop := c.screen.store = .off

variable {c : Canvas} (hc : c.Frameless)

include hc

theorem perform_plain {command : DrawCommand} (hplain : command.Plain) :
    (c.perform command).1.Frameless ∧
      ∀ e, (c.perform command).2 = .error e → e.Permitted := by
  cases command with
  | createSprite data w h color => exact absurd rfl (hplain data w h color)
  | present =>
      have hstore : c.screen.store = .off := hc
      simp only [perform, Screen.present, hstore]
      exact ⟨rfl, nofun⟩
  | sprite index x y =>
      simp only [perform]
      cases hfind : c.sprites.find index with
      | ok texture => exact ⟨hc, nofun⟩
      | error e =>
          refine ⟨hc, fun e' he => ?_⟩
          cases he
          exact Sprites.permitted_of_find hfind
  | isKeyPressed code | pressKey code | releaseKey code =>
      simp only [perform]
      split
      · exact ⟨hc, nofun⟩
      · refine ⟨hc, fun e he => ?_⟩
        cases he
        exact .key
  | _ => exact ⟨hc, nofun⟩

theorem perform_createSprite {data : List UInt8} {w h : Nat} (color : Int) (hw : w % 8 = 0)
    (hdata : data.length = w / 8 * h) :
    (c.perform (.createSprite data w h color)).1.Frameless ∧
      ∀ e, (c.perform (.createSprite data w h color)).2 ≠ .error e := by
  simp only [perform, Sprites.create, hw, hdata, ne_eq, not_true_eq_false, if_false]
  exact ⟨hc, nofun⟩

end Canvas

theorem Memory.length_readBytes {m : Memory} {a n : Nat} {bs : List UInt8}
    (h : m.readBytes a n = .ok bs) : bs.length = n := by
  unfold readBytes at h
  split at h
  next hfits =>
    cases h
    have hsize : a + n ≤ m.bytes.size := hfits
    simp only [Array.length_toList, Array.size_extract]
    omega
  next => cases h

/-! ## Safe actions -/

namespace Exec

variable {P : Halt → Prop} {α β : Type}

/-- Where frames are not kept, the action leaves it at that, and it halts only as `P` permits. -/
def Safe (P : Halt → Prop) (x : Exec α) : Prop :=
  ∀ s : State, s.canvas.Frameless →
    match x s with
    | .ok _ t => t.canvas.Frameless
    | .error h _ => P h

theorem Safe.pure (a : α) : Safe P (pure a : Exec α) := fun _ hs => hs

theorem Safe.throw {h : Halt} (hh : P h) : Safe P (throw h : Exec α) := fun _ _ => hh

theorem Safe.lift {r : Except Fault α} (hr : ∀ f, r = .error f → P (.fault f)) :
    Safe P (lift r) := by
  cases r with
  | ok a => exact .pure a
  | error f => exact .throw (hr f rfl)

theorem Safe.modify {g : State → State} (hg : ∀ s, (g s).canvas = s.canvas) :
    Safe P (modify g : Exec Unit) := by
  intro s hs
  change (g s).canvas.Frameless
  rw [hg]
  exact hs

theorem Safe.get_bind {f : State → Exec β} (hf : ∀ s, Safe P (f s)) : Safe P (get >>= f) :=
  fun s => hf s s

theorem Safe.bind {x : Exec α} {f : α → Exec β} (hx : Safe P x) (hf : ∀ a, Safe P (f a)) :
    Safe P (x >>= f) := by
  intro s hs
  have h := hx s hs
  cases hr : x s with
  | ok a t =>
      rw [hr] at h
      rw [bind_of_ok hr]
      exact hf a t h
  | error e t =>
      rw [hr] at h
      rw [bind_of_error hr]
      exact h

theorem safe_addressOf (x : String) : Safe P (addressOf x) := by
  intro s hs
  cases hx : s.vars.lookup x with
  | some a =>
      rw [addressOf_of_some hx]
      exact hs
  | none =>
      rw [addressOf_of_none hx]
      exact hs

theorem safe_perform_of {c : DrawCommand}
    (hc : ∀ canvas : Canvas, canvas.Frameless → (canvas.perform c).1.Frameless ∧
      ∀ e, (canvas.perform c).2 = .error e → P (.fault (.canvas e))) :
    Safe P (perform c) := by
  intro s hs
  obtain ⟨hkept, herror⟩ := hc s.canvas hs
  have heq : perform c s = lift ((s.canvas.perform c).2.mapError .canvas)
      { s with canvas := (s.canvas.perform c).1 } := rfl
  rw [heq]
  cases hr : (s.canvas.perform c).2 with
  | ok reply => exact hkept
  | error e => exact herror e hr

section

variable (hmemory : ∀ e, P (.fault (.memory e)))

include hmemory

theorem safe_check (access : Access) (a : Nat) : Safe P (check access a) := by
  apply Safe.get_bind
  intro s
  apply Safe.lift
  intro f hf
  cases hr : s.memory.check access a with
  | ok _ =>
      rw [hr] at hf
      cases hf
  | error e =>
      rw [hr] at hf
      cases hf
      exact hmemory e

theorem safe_createSprite (a h color : Nat) {w : Nat} (hw : w % 8 = 0) :
    Safe P (createSprite a w h color) := by
  intro s hs
  cases hread : s.memory.readBytes a (w / 8 * h) with
  | error e =>
      have hbytes : readBytes a (w / 8 * h) s = .error (.fault (.memory e)) s := by
        change lift ((s.memory.readBytes a (w / 8 * h)).mapError .memory) s = _
        rw [hread]
        rfl
      rw [createSprite, bind_of_error hbytes]
      exact hmemory e
  | ok data =>
      have hbytes : readBytes a (w / 8 * h) s = .ok data s := by
        change lift ((s.memory.readBytes a (w / 8 * h)).mapError .memory) s = _
        rw [hread]
        rfl
      rw [createSprite, bind_of_ok hbytes]
      -- The bytes are as many as the sprite needs, so that the canvas has no objection.
      have hperform : Safe P (perform (.createSprite data w h color)) := by
        apply safe_perform_of
        intro canvas hcanvas
        have hcreate := Canvas.perform_createSprite hcanvas color hw (Memory.length_readBytes hread)
        exact ⟨hcreate.1, fun e he => absurd he (hcreate.2 e)⟩
      refine Safe.bind hperform (fun reply => ?_) s hs
      cases reply with
      | index n => exact .pure n
      | done => exact .pure 0
      | flag b => exact .pure 0

end

end Exec

def Coupling.safe (P : Halt → Prop) : Coupling where
  Rel x y := x = y ∧ Exec.Safe P x
  pure a := ⟨rfl, .pure a⟩
  bind := by
    rintro α β x _ f g ⟨rfl, hx⟩ hf
    exact ⟨congrArg _ (funext fun a => (hf a).1), hx.bind fun a => (hf a).2⟩

/-! ## Programs -/

/-- The program has no operators but the known ones, and the jumps that lead nowhere are `gotos`. -/
structure Program.Sound (p : Program) (gotos : List String) : Prop where
  operators : ∀ op ∈ p.operators, op.isKnown
  targets : ∀ l ∈ p.targets, p.labels.lookup l = none → l ∈ gotos ∧ ∀ k, l ≠ madeLabel k

theorem Program.sound_of_parse {file text : String} {src : Source} {p : Program}
    (hparse : Source.parse file text = .ok src) (hload : Program.ofSource src = .ok p) :
    p.Sound (Stmt.gotosAll src.code) where
  operators op hop := by
    have hwf := (Source.wellFormed_of_parse hparse).code
    rcases List.mem_append.mp (Program.operators_subset hload hop) with hop | hop
    · exact Stmt.isKnown_of_wellFormedAll hwf hop
    · have hall : ∀ op ∈ loopOperators, op.isKnown := by decide
      exact hall op hop
  targets l hl hnone := by
    have hwf := (Source.wellFormed_of_parse hparse).code
    have hgoto := Program.mem_gotos_of_lookup_eq_none hload hl hnone
    exact ⟨hgoto, ne_madeLabel_of_isName (Stmt.isName_of_mem_gotosAll hwf hgoto)⟩

theorem BinOp.permitted_of_apply {op : BinOp} (hop : op.isKnown) {a b : Nat} {f : Fault}
    (h : op.apply a b = .error f) (gotos : List String) (strict : Bool) :
    f.Permitted gotos strict := by
  cases op with
  | unknown s => cases hop
  | known o =>
      simp only [apply] at h
      split at h
      · cases h
      · cases h
        exact .divisionByZero

namespace Machine

variable {p : Program} {gotos : List String} {o : Options}

theorem permitted_of_refuses (hsound : p.Sound gotos) {strict : Bool} {f : Fault}
    (h : p.Refuses strict f) : f.Permitted gotos strict := by
  cases h with
  | label hl hnone =>
      have hgoto := hsound.targets _ hl hnone
      exact .label hgoto.1 hgoto.2
  | function => exact .function
  | notAFunction => exact .notAFunction
  | arity hstrict => exact .arity hstrict
  | builtinArity => exact .builtinArity
  | character => exact .character
  | range => exact .range
  | spriteWidth => exact .canvas .width

theorem covers_safe (hsound : p.Sound gotos) (hsink : o.sink = .steady) :
    (Coupling.safe (Halt.Permitted gotos o.strictArgs)).Covers p o o := by
  have hmemory (e : OutOfBounds) : Halt.Permitted gotos o.strictArgs (.fault (.memory e)) :=
    .fault .memory
  have hcheck (access : Access) (a : Nat) :
      Exec.Safe (Halt.Permitted gotos o.strictArgs) (Exec.check access a) :=
    Exec.safe_check hmemory access a
  exact
    { strict_eq := rfl
      addressOf := fun x _ => ⟨rfl, Exec.safe_addressOf x⟩
      readWord := fun _ => ⟨rfl, .bind (hcheck _ _) fun _ => .get_bind fun _ => .pure _⟩
      readByte := fun _ => ⟨rfl, .bind (hcheck _ _) fun _ => .get_bind fun _ => .pure _⟩
      writeWord := fun _ _ => ⟨rfl, .bind (hcheck _ _) fun _ => .modify fun _ => rfl⟩
      writeByte := fun _ _ => ⟨rfl, .bind (hcheck _ _) fun _ => .modify fun _ => rfl⟩
      apply := fun op hop a b => ⟨rfl, .lift fun f hf =>
        .fault (BinOp.permitted_of_apply (hsound.operators op hop) hf _ _)⟩
      write := fun text => ⟨rfl, by
        rw [hsink]
        exact .modify fun _ => rfl⟩
      draw := fun low high => ⟨rfl, fun s hs => hs⟩
      perform := fun c hc => ⟨rfl, Exec.safe_perform_of fun canvas hcanvas => by
        have hplain := Canvas.perform_plain hcanvas hc
        exact ⟨hplain.1, fun e he => .fault (.canvas (hplain.2 e he))⟩⟩
      createSprite := fun a w h color hw => ⟨rfl, Exec.safe_createSprite hmemory a h color hw⟩
      refuse := fun f hf => ⟨rfl, .throw (.fault (permitted_of_refuses hsound hf))⟩
      exit := ⟨rfl, .throw .exit⟩
      unfinished := ⟨rfl, .throw .unfinished⟩
      here := ⟨rfl, .get_bind fun _ => .pure _⟩
      jumpTo := fun _ => ⟨rfl, .modify fun _ => rfl⟩
      record := fun _ => ⟨rfl, .modify fun _ => rfl⟩
      pushFrame := fun _ _ => ⟨rfl, .modify fun _ => rfl⟩
      popFrame := ⟨rfl, .modify fun s => by
        cases s.calls <;> rfl⟩ }

/-! ## Where a run looks into the code -/

def InCode (m : Machine) (k : Loop) (t : State) : Prop :=
  t.ip < m.program.code.size ∨
    (t.ip = m.program.code.size ∧ ∀ n, m.loop k (n + 1) t =
      match k with
      | .top => .ok () t
      | .body => .error (.exit 0) t)

theorem inCode_of_ip_le {m : Machine} {t : State} (h : t.ip ≤ m.program.code.size) (k : Loop) :
    m.InCode k t := by
  rcases Nat.lt_or_eq_of_le h with hlt | heq
  · exact .inl hlt
  · refine .inr ⟨heq, fun n => ?_⟩
    have hnone : m.program.code[t.ip]? = none := by rw [heq, Array.getElem?_size]
    have hstops : ∀ line, ¬ m.Going k t line := by
      intro line hgo
      cases hnone.symm.trans hgo.1
    rcases m.loop_succ_of_not_going hstops with ⟨hok, hreturn⟩ | ⟨rfl, -, hexit⟩
    · cases k with
      | top => exact hok
      | body =>
          have hinstr := hreturn rfl
          rw [instrAt, hnone] at hinstr
          cases hinstr
    · exact hexit

theorem calls_ne_nil_of_visits {m : Machine} {k k' : Loop} {s t : State}
    (h : m.Visits k s k' t) (hs : s.calls ≠ []) : t.calls ≠ [] := by
  induction h with
  | here => exact hs
  | next hgo hstep _ ih =>
      apply ih
      obtain ⟨hadv, -⟩ := m.step_ok (m.caller_returns _) hgo.1 hstep
      rw [hadv.calls_eq]
      exact hs
  | enter _ _ henter _ ih =>
      apply ih
      obtain ⟨entry, params, preserve, saved, r, -, -, rfl⟩ := henter
      exact List.cons_ne_nil _ _

theorem ip_lt_of_callsAll {m : Machine} {k : Loop} {n : Nat} {t u : State} {line : CodeLine}
    {f : String} {args : List Nat} (hgo : m.Going k t line)
    (h : Expr.CallsAll (m.caller n) line.instr.operands (t.recorded m.options.verbose line)
      f args u) : u.ip < m.program.code.size := by
  have hreturns := h.evolves State.evolution_returns (m.caller_returns n)
  rw [hreturns.ip_eq]
  exact ip_lt_of_going hgo

/-! ## Runs -/

theorem run_permitted (hsound : p.Sound gotos) (hsink : o.sink = .steady) (fuel : Nat) {s : State}
    (hs : s.canvas.Frameless) :
    (run ⟨p, o⟩ fuel s).1 = .unfinished ∨ (run ⟨p, o⟩ fuel s).1 = .exited 0 ∨
      ∃ crash, (run ⟨p, o⟩ fuel s).1 = .crashed crash ∧
        crash.fault.Permitted gotos o.strictArgs := by
  have hloops : Exec.Safe (Halt.Permitted gotos o.strictArgs) (loop ⟨p, o⟩ .top fuel) :=
    ((covers_safe hsound hsink).untilEnd fuel).2
  have hsafe := hloops s.begun hs
  rw [run_eq]
  cases hloop : loop ⟨p, o⟩ .top fuel s.begun with
  | ok _ t => exact .inr (.inl rfl)
  | error e t =>
      rw [hloop] at hsafe
      cases hsafe with
      | fault hf => exact .inr (.inr ⟨_, rfl, hf⟩)
      | exit => exact .inr (.inl rfl)
      | unfinished => exact .inl rfl

/--
A program that was read from a text, and whose output is taken, ends with the
status zero or with a fault of the language, if it ends.  It never looks for
an instruction where there is none: not when it executes the next one, nor
where a call was made, nor at a label.  It always has a call to return from.
-/
theorem run_safe {file text : String} {src : Source} {p : Program}
    (hparse : Source.parse file text = .ok src) (hload : Program.ofSource src = .ok p)
    {o : Options} (hsink : o.sink = .steady) {canvas : Canvas} (hcanvas : canvas.Frameless)
    (generator : Generator) :
    let m : Machine := ⟨p, o⟩
    let s := m.start canvas generator
    (∀ fuel, (m.run fuel s).1 = .unfinished ∨ (m.run fuel s).1 = .exited 0 ∨
      ∃ crash, (m.run fuel s).1 = .crashed crash ∧
        crash.fault.Permitted (Stmt.gotosAll src.code) o.strictArgs) ∧
    (∀ k t, m.Visits .top s.begun k t → m.InCode k t ∧ t.calls ≠ [] ∧
      ∀ line n f args u, m.Going k t line →
        Expr.CallsAll (m.caller n) line.instr.operands (t.recorded o.verbose line) f args u →
        u.ip < p.code.size) ∧
    ∀ l i, p.labels.lookup l = some i → i < p.code.size := by
  intro m s
  have hloaded : p.Loaded := Program.loaded_of_ofSource hload
  refine ⟨fun fuel => ?_, fun k t hvisit => ⟨?_, ?_, ?_⟩, fun l i hl => ?_⟩
  · exact run_permitted (Program.sound_of_parse hparse hload) hsink fuel hcanvas
  · exact inCode_of_ip_le (ip_le_of_visits hloaded hvisit (Nat.zero_le _)) k
  · exact calls_ne_nil_of_visits hvisit (List.cons_ne_nil _ _)
  · intro line n f args u hgo hcalls
    exact ip_lt_of_callsAll hgo hcalls
  · exact Program.lt_of_lookup_labels hloaded hl

def stray : Source where
  data := []
  code := [
    .whileLoop (.lit 1) [.assign (.var "x") (.call "f" []) (some ⟨"stray", 2, 1, "f() -> x"⟩)]
      (some ⟨"stray", 1, 1, "while 1"⟩),
    .goto "there" (some ⟨"stray", 4, 1, "goto there"⟩)]

def stray.program : Program where
  code := (Code.ofBlock stray.code).toArray
  data := []
  labels := [("$internal_0", 0), ("$internal_1", 4)]
  dataLabels := []

theorem stray_safe :
    Source.parse "stray" "while 1\nf() -> x\nend\ngoto there" = .ok stray ∧
      Program.ofSource stray = .ok stray.program ∧
      let m : Machine := ⟨stray.program, {}⟩
      ∀ generator fuel crash,
        (m.run fuel (m.start (.ofScreen (.standard .off)) generator)).1 = .crashed crash →
        crash.fault.Permitted ["there"] false := by
  have hparse : Source.parse "stray" "while 1\nf() -> x\nend\ngoto there" = .ok stray := by
    cbv
  have hload : Program.ofSource stray = .ok stray.program := by rfl
  refine ⟨hparse, hload, fun generator fuel crash hcrash => ?_⟩
  have hsink : ({} : Options).sink = .steady := rfl
  have hcanvas : (Canvas.ofScreen (.standard .off)).Frameless := rfl
  obtain ⟨hrun, -⟩ := run_safe hparse hload hsink hcanvas generator
  rcases hrun fuel with hend | hend | ⟨crash', hend, hpermitted⟩
  · cases hcrash.symm.trans hend
  · cases hcrash.symm.trans hend
  · cases hcrash.symm.trans hend
    exact hpermitted

end Machine

end BrownLang
