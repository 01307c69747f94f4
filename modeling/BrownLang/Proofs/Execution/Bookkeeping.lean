import Mathlib.Data.List.Nodup
import Mathlib.Data.List.Perm.Subperm
import BrownLang.Proofs.Execution.Timeline
import BrownLang.Proofs.Text.Numerals

/-!
# The books of a run

Between two instructions the journal agrees with the events of the run so far.
It has counted the instructions that were started and kept the latest of their
entries, as many as it may.  It also has the latest entry of every frame, but
only of frames whose calls are in progress, however many have returned.
-/

namespace BrownLang

/-! ## Latest entries -/

namespace FrameEntries

variable {id : Nat} {es : FrameEntries}

def keys (es : FrameEntries) : List Nat := es.map Prod.fst

theorem mem_keys_put {e : Entry} {k : Nat} :
    k ∈ (put id e es).keys ↔ k = id ∨ k ∈ es.keys := by
  induction es with
  | nil => simp [put, keys]
  | cons p rest ih =>
      obtain ⟨j, x⟩ := p
      unfold put
      simp only [keys] at ih ⊢
      split
      next hj => simp [hj]
      next =>
        split
        · simp
        · simp only [List.map_cons, List.mem_cons, ih]
          exact or_left_comm

theorem keys_put_descending {e : Entry} (h : es.keys.Pairwise (· > ·)) :
    (put id e es).keys.Pairwise (· > ·) := by
  induction es with
  | nil => simp [put, keys]
  | cons p rest ih =>
      obtain ⟨j, x⟩ := p
      obtain ⟨hbelow, hrest⟩ := List.pairwise_cons.mp h
      unfold put
      split
      next hj =>
        subst hj
        exact h
      next hne =>
        split
        next hlt =>
          refine List.pairwise_cons.mpr ⟨fun k hk => ?_, h⟩
          rcases List.mem_cons.mp hk with rfl | hk
          · exact hlt
          · exact Nat.lt_trans (hbelow k hk) hlt
        next hge =>
          refine List.pairwise_cons.mpr ⟨fun k hk => ?_, ih hrest⟩
          rcases mem_keys_put.mp hk with rfl | hk
          · change k < j
            omega
          · exact hbelow k hk

theorem drop_sublist (id : Nat) (es : FrameEntries) : (drop id es).Sublist es := by
  induction es with
  | nil => exact .slnil
  | cons p rest ih =>
      obtain ⟨j, x⟩ := p
      unfold drop
      split
      · exact List.sublist_cons_self _ _
      · exact ih.cons_cons _

theorem not_mem_keys_drop (h : es.keys.Pairwise (· > ·)) : id ∉ (drop id es).keys := by
  induction es with
  | nil => simp [drop, keys]
  | cons p rest ih =>
      obtain ⟨j, x⟩ := p
      obtain ⟨hbelow, hrest⟩ := List.pairwise_cons.mp h
      unfold drop
      split
      next hj =>
        subst hj
        exact fun hmem => Nat.lt_irrefl j (hbelow j hmem)
      next hne =>
        intro hmem
        rcases List.mem_cons.mp hmem with rfl | hmem
        · exact hne rfl
        · exact ih hrest hmem

theorem lookup_of_not_mem_keys (h : id ∉ es.keys) : es.lookup id = none := by
  rw [List.lookup_eq_none_iff]
  intro p hp
  have hne : id ≠ p.1 := by
    rintro rfl
    exact h (List.mem_map_of_mem hp)
  simpa using hne

end FrameEntries

/-! ## Entries and frames of the events -/

namespace Event

def entries (verbose : Bool) (evs : List Event) : List Entry := evs.filterMap (logged? verbose)

def frames (evs : List Event) : List Frame := evs.filterMap frame?

variable {verbose : Bool} {evs : List Event}

@[simp] theorem entries_started (s : State) (line : CodeLine) :
    entries verbose (evs ++ [started s line]) = entries verbose evs ++ [s.entry verbose line] := by
  simp [entries, logged?]

@[simp] theorem entries_framed (f : Frame) :
    entries verbose (evs ++ [framed f]) = entries verbose evs := by
  simp [entries, logged?]

@[simp] theorem frames_started (s : State) (line : CodeLine) :
    frames (evs ++ [started s line]) = frames evs := by
  simp [frames, frame?]

@[simp] theorem frames_framed (f : Frame) : frames (evs ++ [framed f]) = frames evs ++ [f] := by
  simp [frames, frame?]

end Event

def latestOf (es : List Entry) (id : Nat) : Option Entry :=
  (es.filter fun e => e.frame = some id).getLast?

theorem latestOf_concat (es : List Entry) (e : Entry) (id : Nat) :
    latestOf (es ++ [e]) id = if e.frame = some id then some e else latestOf es id := by
  unfold latestOf
  rw [List.filter_append, List.filter_cons, List.filter_nil]
  by_cases h : e.frame = some id
  · simp [h]
  · simp [h]

theorem latestOf_eq_none {es : List Entry} {id : Nat} (h : ∀ e ∈ es, e.frame ≠ some id) :
    latestOf es id = none := by
  rw [latestOf, List.getLast?_eq_none_iff, List.filter_eq_nil_iff]
  intro e he
  simpa using h e he

/-! ## Journals -/

namespace Journal

/-- The journal has counted the entries `es`, and keeps the latest of them. -/
structure Records (limit : Nat) (es : List Entry) (j : Journal) : Prop where
  next_eq : j.next = es.length
  limit_eq : j.kept.limit = limit
  kept_eq : j.kept.latestFirst = es.reverse.take limit
  steps_eq : es.map Entry.step = List.range es.length

/--
The journal has the latest entries of the frames `calls` among `es`, and of no
other frames.
-/
structure Follows (calls : List Frame) (es : List Entry) (j : Journal) : Prop where
  descending : j.latest.keys.Pairwise (· > ·)
  called : ∀ id ∈ j.latest.keys, ∃ f ∈ calls, f.id = id
  latest_eq : ∀ f ∈ calls, j.entryOf? f = latestOf es f.id

variable {limit : Nat} {es : List Entry} {j : Journal}

theorem Records.add (h : j.Records limit es) {e : Entry} (he : e.step = j.next) :
    (j.add e).Records limit (es ++ [e]) where
  next_eq := by rw [Journal.add, h.next_eq, List.length_append, List.length_singleton]
  limit_eq := (Window.limit_push _ _).trans h.limit_eq
  kept_eq := by
    rw [Journal.add, Window.latestFirst_push, h.kept_eq, h.limit_eq, List.reverse_append,
      List.reverse_singleton, List.singleton_append]
    cases limit with
    | zero => rfl
    | succ n =>
        rw [List.take_succ_cons, List.take_succ_cons, List.take_take, Nat.min_eq_left n.le_succ]
  steps_eq := by
    rw [List.map_append, h.steps_eq, List.map_singleton, he, h.next_eq, List.length_append,
      List.length_singleton, List.range_succ]

theorem Records.dropFrame (h : j.Records limit es) (id : Nat) :
    (j.dropFrame id).Records limit es :=
  ⟨h.next_eq, h.limit_eq, h.kept_eq, h.steps_eq⟩

theorem Follows.add {calls : List Frame} (h : j.Follows calls es) {e : Entry}
    (he : e.frame = calls.head?.map Frame.id) : (j.add e).Follows calls (es ++ [e]) := by
  cases calls with
  | nil =>
      have hnone : e.frame = none := he
      refine ⟨?_, ?_, nofun⟩
      · simpa [Journal.add, hnone] using h.descending
      · simpa [Journal.add, hnone] using h.called
  | cons f fs =>
      have hsome : e.frame = some f.id := he
      have hlatest : (j.add e).latest = j.latest.put f.id e := by
        rw [Journal.add, hsome]
      constructor
      case descending =>
        rw [hlatest]
        exact FrameEntries.keys_put_descending h.descending
      case called =>
        intro id hid
        rw [hlatest] at hid
        rcases FrameEntries.mem_keys_put.mp hid with rfl | hid
        · exact ⟨f, .head _, rfl⟩
        · exact h.called id hid
      case latest_eq =>
        intro g hg
        rw [entryOf?, hlatest, FrameEntries.lookup_put, latestOf_concat, hsome]
        by_cases hid : g.id = f.id
        · simp [hid]
        · rw [if_neg hid, if_neg (by simpa using Ne.symm hid)]
          exact h.latest_eq g hg

theorem Follows.push {calls : List Frame} (h : j.Follows calls es) {f : Frame}
    (hcalls : ∀ g ∈ calls, g.id < f.id) (hes : ∀ e ∈ es, e.frame ≠ some f.id) :
    j.Follows (f :: calls) es where
  descending := h.descending
  called id hid := by
    obtain ⟨g, hg, hid⟩ := h.called id hid
    exact ⟨g, .tail _ hg, hid⟩
  latest_eq g hg := by
    rcases List.mem_cons.mp hg with rfl | hg
    · have hnew : g.id ∉ j.latest.keys := by
        intro hmem
        obtain ⟨g', hg', hid⟩ := h.called _ hmem
        exact Nat.ne_of_lt (hcalls g' hg') hid
      rw [entryOf?, FrameEntries.lookup_of_not_mem_keys hnew, latestOf_eq_none hes]
    · exact h.latest_eq g hg

theorem Follows.pop {f : Frame} {calls : List Frame} (h : j.Follows (f :: calls) es)
    (hcalls : ∀ g ∈ calls, g.id < f.id) : (j.dropFrame f.id).Follows calls es where
  descending := h.descending.sublist ((FrameEntries.drop_sublist _ _).map _)
  called id hid := by
    have hmem : id ∈ j.latest.keys := ((FrameEntries.drop_sublist _ _).map _).subset hid
    obtain ⟨g, hg, hg'⟩ := h.called id hmem
    rcases List.mem_cons.mp hg with rfl | hg
    · exact absurd (hg' ▸ hid) (FrameEntries.not_mem_keys_drop h.descending)
    · exact ⟨g, hg, hg'⟩
  latest_eq g hg := by
    have hne : g.id ≠ f.id := Nat.ne_of_lt (hcalls g hg)
    have hold := h.latest_eq g (.tail _ hg)
    rwa [entryOf?, dropFrame, FrameEntries.lookup_drop_of_ne hne]

theorem Follows.keys_nodup {calls : List Frame} (h : j.Follows calls es) : j.latest.keys.Nodup :=
  h.descending.imp fun hgt => Nat.ne_of_gt hgt

theorem Follows.keys_subset {calls : List Frame} (h : j.Follows calls es) :
    j.latest.keys ⊆ calls.map Frame.id := by
  intro id hid
  obtain ⟨f, hf, rfl⟩ := h.called id hid
  exact List.mem_map_of_mem hf

theorem Follows.length_le {calls : List Frame} (h : j.Follows calls es) :
    j.latest.length ≤ calls.length := by
  have hle := (h.keys_nodup.subperm h.keys_subset).length_le
  rwa [FrameEntries.keys, List.length_map, List.length_map] at hle

end Journal

/-! ## The books -/

structure State.Numbers (fs : List Frame) (s : State) : Prop where
  numbers_eq : fs.map Frame.id = List.range s.nextFrame
  ordered : s.calls.Pairwise fun f g => g.id < f.id
  below : ∀ f ∈ s.calls, f.id < s.nextFrame

/-- The journal and the frames of `s` agree with the events `evs`. -/
structure Machine.Books (m : Machine) (evs : List Event) (s : State) : Prop where
  records : s.journal.Records m.options.historyLimit (Event.entries m.options.verbose evs)
  numbers : s.Numbers (Event.frames evs)
  older : ∀ e ∈ Event.entries m.options.verbose evs, ∀ id, e.frame = some id → id < s.nextFrame
  follows : s.journal.Follows s.calls (Event.entries m.options.verbose evs)

namespace Machine

variable {m : Machine} {evs : List Event} {s t : State}

theorem Books.started (h : m.Books evs s) (line : CodeLine) :
    m.Books (evs ++ [.started s line]) (s.recorded m.options.verbose line) := by
  constructor
  case records =>
    rw [Event.entries_started]
    exact h.records.add rfl
  case numbers =>
    rw [Event.frames_started]
    exact ⟨h.numbers.numbers_eq, h.numbers.ordered, h.numbers.below⟩
  case older =>
    rw [Event.entries_started]
    intro e he id hid
    rcases List.mem_append.mp he with he | he
    · exact h.older e he id hid
    · rw [List.mem_singleton.mp he] at hid
      obtain ⟨f, hf, rfl⟩ := Option.map_eq_some_iff.mp hid
      exact h.numbers.below f (List.mem_of_mem_head? hf)
  case follows =>
    rw [Event.entries_started]
    exact h.follows.add rfl

theorem Books.framed (h : m.Books evs s) (f : String) (loc : Option Location) (entry : Nat) :
    m.Books (evs ++ [.framed ⟨f, s.nextFrame, loc⟩]) (s.entered f loc entry) := by
  constructor
  case records =>
    rw [Event.entries_framed]
    exact h.records
  case numbers =>
    rw [Event.frames_framed]
    constructor
    case numbers_eq =>
      rw [List.map_append, h.numbers.numbers_eq, State.entered, List.range_succ]
      rfl
    case ordered => exact List.pairwise_cons.mpr ⟨h.numbers.below, h.numbers.ordered⟩
    case below =>
      intro g hg
      rcases List.mem_cons.mp hg with rfl | hg
      · exact Nat.lt_succ_self _
      · exact Nat.lt_succ_of_lt (h.numbers.below g hg)
  case older =>
    rw [Event.entries_framed]
    exact fun e he id hid => Nat.lt_succ_of_lt (h.older e he id hid)
  case follows =>
    rw [Event.entries_framed]
    refine h.follows.push h.numbers.below fun e he hid => ?_
    exact Nat.lt_irrefl _ (h.older e he _ hid)

theorem Books.returned (h : m.Books evs s) (home : Nat) : m.Books evs (s.returned home) := by
  have hordered := h.numbers.ordered
  have hbelow := h.numbers.below
  have hfollows := h.follows
  unfold State.returned
  split
  next hcalls => exact ⟨h.records, ⟨h.numbers.numbers_eq, hordered, hbelow⟩, h.older, hfollows⟩
  next f rest hcalls =>
    rw [hcalls] at hordered hbelow hfollows
    obtain ⟨hlater, hrest⟩ := List.pairwise_cons.mp hordered
    exact ⟨h.records.dropFrame f.id,
      ⟨h.numbers.numbers_eq, hrest, fun g hg => hbelow g (.tail _ hg)⟩, h.older,
      hfollows.pop hlater⟩

theorem accounting_books (m : Machine) : m.Accounting m.Books where
  congr {evs s t} h hjournal hcalls hnext := by
    constructor
    · rw [hjournal]
      exact h.records
    · exact ⟨hnext ▸ h.numbers.numbers_eq, hcalls ▸ h.numbers.ordered,
        by rw [hcalls, hnext]; exact h.numbers.below⟩
    · rw [hnext]
      exact h.older
    · rw [hjournal, hcalls]
      exact h.follows
  started line h := h.started line
  framed f loc entry h := h.framed f loc entry
  returned home h := h.returned home

theorem books_start (canvas : Canvas) (generator : Generator) :
    m.Books [] (m.start canvas generator) where
  records := ⟨rfl, rfl, by simp [start, Journal.empty, Event.entries], rfl⟩
  numbers := ⟨rfl, .nil, nofun⟩
  older := nofun
  follows := ⟨.nil, nofun, nofun⟩

/--
Every state that a run visits has its events behind it, and then the books are
right: the next entry has the number of instructions started so far; the entries
kept are the latest of theirs, as many as may be kept, and no two have the same
number; no two of the frames made have the same number; and there are latest
entries for frames of calls in progress only, for each the latest of those that
were made while it was the innermost.
-/
theorem journal_keeps_books (m : Machine) (canvas : Canvas) (generator : Generator) :
    let s₀ := (m.start canvas generator).begun
    (∀ k s, m.Visits .top s₀ k s → ∃ evs, m.Comes s₀ evs k s) ∧
    ∀ evs k s, m.Comes s₀ evs k s →
      let es := Event.entries m.options.verbose evs
      (s.journal.next = es.length ∧
        s.journal.kept.toList = es.drop (es.length - m.options.historyLimit) ∧
        es.map Entry.step = List.range es.length ∧ (es.map Entry.label).Nodup) ∧
      ((Event.frames evs).map fun f => Frame.label f.id).Nodup ∧
      s.journal.latest.keys.Nodup ∧ s.journal.latest.keys ⊆ s.calls.map Frame.id ∧
      (∀ f ∈ s.calls, s.journal.entryOf? f = latestOf es f.id) ∧
      s.journal.latest.length ≤ s.calls.length := by
  intro s₀
  refine ⟨fun k s h => Comes.begun.of_visits h, fun evs k s h => ?_⟩
  intro es
  have hbooks : m.Books evs s :=
    m.accounting_books.of_comes h ((books_start canvas generator).framed _ _ _)
  obtain ⟨hrecords, hnumbers, -, hfollows⟩ := hbooks
  refine ⟨⟨hrecords.next_eq, ?kept, hrecords.steps_eq, ?labels⟩, ?frames,
    hfollows.keys_nodup, hfollows.keys_subset, hfollows.latest_eq, hfollows.length_le⟩
  case kept =>
    rw [Window.toList, hrecords.kept_eq, List.take_reverse, List.reverse_reverse]
  case labels =>
    have hlabels : es.map Entry.label =
        (List.range es.length).map fun step => "s_" ++ Text.zeroPadded 6 step := by
      rw [← hrecords.steps_eq, List.map_map]
      rfl
    rw [hlabels]
    exact List.nodup_range.map fun i j hij =>
      Text.zeroPadded_injective 6 ((String.append_right_inj _).mp hij)
  case frames =>
    have hlabels : (Event.frames evs).map (fun f => Frame.label f.id) =
        (List.range s.nextFrame).map Frame.label := by
      rw [← hnumbers.numbers_eq, List.map_map]
      rfl
    rw [hlabels]
    exact List.nodup_range.map fun i j hij =>
      Text.zeroPadded_injective 4 ((String.append_right_inj _).mp hij)

def descent : Machine where
  program := {
    code := (Code.ofBlock [
      .eval (.call "f" [.lit 2]) none,
      .goto "out" none,
      .function "f" ["n"] true
        [.ifThen (.var "n") [.eval (.call "f" [.bin (.known .sub) (.var "n") (.lit 1)]) none] none]
        none,
      .label "out" none]).toArray
    data := []
    labels := [("f", 2), ("$internal_0", 5), ("out", 7)]
    dataLabels := [] }
  options := { historyLimit := 2 }

def descent.begin : State := descent.start (.ofScreen (.standard .off)) (.scripted [] [])

theorem descent_keeps_books : ∃ evs t,
    descent.Comes descent.begin.begun evs .top t ∧
    descent.loop .top 10 descent.begin.begun = .ok () t ∧
    (Event.entries false evs).length = 12 ∧
    t.journal.kept.toList = (Event.entries false evs).drop 10 ∧
    t.journal.latest.length ≤ 1 := by
  have hended : (descent.loop .top 10).run' descent.begin.begun = some () := by
    decide +kernel
  obtain ⟨t, hloop⟩ := Exec.ok_of_run' hended
  have hlast : Exec.Result.state (descent.loop .top 10 descent.begin.begun) = t := by
    rw [hloop]
    rfl
  have hcounts : t.journal.next = 12 ∧ t.calls.length = 1 := by
    rw [← hlast]
    decide +kernel
  obtain ⟨hevents, hbooks⟩ :=
    journal_keeps_books descent (.ofScreen (.standard .off)) (.scripted [] [])
  obtain ⟨evs, hcomes⟩ := hevents .top t (descent.visits_of_loop_ok hloop)
  obtain ⟨⟨hnext, hkept, -⟩, -, -, -, -, hlength⟩ := hbooks evs .top t hcomes
  have hcount : (Event.entries false evs).length = 12 := hnext.symm.trans hcounts.1
  refine ⟨evs, t, hcomes, hloop, hcount, ?_, hcounts.2 ▸ hlength⟩
  rw [hkept]
  exact congrArg (fun n => (Event.entries false evs).drop (n - 2)) hcount

end Machine

end BrownLang
