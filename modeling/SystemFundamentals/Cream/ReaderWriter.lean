import SystemFundamentals.Library.Transition
import Mathlib.Data.Fintype.Card
import Mathlib.Data.Fintype.Basic
import Mathlib.Data.Fintype.Pi
import Mathlib.Logic.Function.Basic

/-!
# The reader/writer protocol of the hash map

{lit}`put`, {lit}`delete` and {lit}`clear_map` are writers and {lit}`get` is a
reader of one protocol over the fields {lit}`num_readers`, {lit}`write_lock` and
{lit}`fields_lock`.  A thread moves one step at a time: a lock operation, one
unlocked read of {lit}`num_readers` in a spin loop, or a section under
{lit}`fields_lock`.  A reader's two sections only count, and each is one step.
A writer's section is entered in one step and left in another, so that a state
can tell who is inside; no other section can start in between.

The map is valid throughout and the thread count is below {lit}`2^31`, so that
{lit}`num_readers` does not overflow.

Main results:

- Theorem {lit}`readerWriter_safe`: in every run whose writers find no reader
  registered when they take {lit}`fields_lock`, a writer's section excludes
  readers, and {lit}`num_readers` is zero when no operation is in progress.
- Theorem {lit}`lateEntry_breaks_exclusion`: a writer that takes
  {lit}`fields_lock` with readers registered ends up inside beside them.
- Theorem {lit}`exists_advance`: without late readers the protocol does not
  deadlock.
-/

namespace SystemFundamentals.Cream.ReaderWriter

open Library

/-! ## The protocol -/

/-- The operations of a valid map. -/
inductive Operation
  | put
  | get
  | delete
  | clearMap
deriving DecidableEq

/-- Where a thread stands. -/
inductive Pc
  /-- No operation in progress. -/
  | outside
  /-- A writer before {lit}`Pthread_mutex_lock(&self->write_lock)`. -/
  | writerLock
  /-- A writer in {lit}`while(self->num_readers > 0)`. -/
  | writerSpin
  /-- A writer before {lit}`Pthread_mutex_lock(&self->fields_lock)`. -/
  | writerReady
  /-- A writer that has set {lit}`num_readers` to -1 and modifies nodes. -/
  | writerSection
  /-- A writer before {lit}`Pthread_mutex_unlock(&self->write_lock)`. -/
  | writerUnlock
  /-- A reader in {lit}`while(self->num_readers < 0)`. -/
  | readerSpin
  /-- A reader before its first {lit}`fields_lock` section. -/
  | readerReady
  /-- A reader between {lit}`num_readers++` and {lit}`num_readers--`. -/
  | reading
deriving DecidableEq

/-- The shared fields and the program counters. -/
structure State (Thread : Type) where
  numReaders : Int
  writeOwner : Option Thread
  fieldsOwner : Option Thread
  pc : Thread → Pc

/-- The steps of a thread. -/
inductive Move
  | call (operation : Operation)
  | lockWrite
  | spin
  | enterSection
  | leaveSection
  | unlockWrite
  | register
  | deregister
deriving DecidableEq

variable {Thread : Type} [DecidableEq Thread]

/-- Advance one thread's program counter. -/
def State.goto (s : State Thread) (thread : Thread) (pc : Pc) : State Thread :=
  { s with pc := Function.update s.pc thread pc }

/-- One step of one thread; {lean}`none` when the step is not enabled. -/
def move (s : State Thread) (thread : Thread) : Move → Option (State Thread)
  | .call operation =>
      if s.pc thread = .outside then
        match operation with
        | .get => some (s.goto thread .readerSpin)
        | .put | .delete | .clearMap => some (s.goto thread .writerLock)
      else none
  | .lockWrite =>
      if s.pc thread = .writerLock ∧ s.writeOwner = none then
        some { s.goto thread .writerSpin with writeOwner := some thread }
      else none
  | .spin =>
      match s.pc thread with
      | .writerSpin =>
          if 0 < s.numReaders then some s else some (s.goto thread .writerReady)
      | .readerSpin =>
          if s.numReaders < 0 then some s else some (s.goto thread .readerReady)
      | _ => none
  | .enterSection =>
      if s.pc thread = .writerReady ∧ s.fieldsOwner = none then
        some { s.goto thread .writerSection with
          fieldsOwner := some thread
          numReaders := -1 }
      else none
  | .leaveSection =>
      if s.pc thread = .writerSection then
        some { s.goto thread .writerUnlock with fieldsOwner := none, numReaders := 0 }
      else none
  | .unlockWrite =>
      if s.pc thread = .writerUnlock then
        some { s.goto thread .outside with writeOwner := none }
      else none
  | .register =>
      if s.pc thread = .readerReady ∧ s.fieldsOwner = none then
        some { s.goto thread .reading with numReaders := s.numReaders + 1 }
      else none
  | .deregister =>
      if s.pc thread = .reading ∧ s.fieldsOwner = none then
        some { s.goto thread .outside with numReaders := s.numReaders - 1 }
      else none

/-- The fields {lit}`create_map` initializes, with every thread outside. -/
def State.init : State Thread where
  numReaders := 0
  writeOwner := none
  fieldsOwner := none
  pc _ := .outside

/-- All interleavings of the threads. -/
def protocol (Thread : Type) [DecidableEq Thread] :
    System (State Thread) (Thread × Move) where
  initial s := s = .init
  step s label s' := move s label.1 label.2 = some s'

/-! ## What the protocol is for -/

/-- No reader is registered while a writer modifies nodes. -/
def Exclusion (s : State Thread) : Prop :=
  ∀ writer reader, s.pc writer = .writerSection → s.pc reader ≠ .reading

/-- When no operation is in progress, {lit}`num_readers` is zero. -/
def QuietZero (s : State Thread) : Prop :=
  (∀ thread, s.pc thread = .outside) → s.numReaders = 0

/-- The step does not enter a writer's section while {lit}`num_readers` counts
readers. -/
def NoLateReader (s : State Thread) (label : Thread × Move) : Prop :=
  label.2 = .enterSection → s.numReaders ≤ 0

instance (s : State Thread) (label : Thread × Move) : Decidable (NoLateReader s label) :=
  inferInstanceAs (Decidable (_ → _))

/-! ## The invariant -/

variable [Fintype Thread]

/-- The threads between {lit}`num_readers++` and {lit}`num_readers--`. -/
def readers (pc : Thread → Pc) : Finset Thread :=
  Finset.univ.filter fun thread => pc thread = .reading

omit [DecidableEq Thread] in
@[simp] theorem mem_readers {pc : Thread → Pc} {thread : Thread} :
    thread ∈ readers pc ↔ pc thread = .reading := by
  simp [readers]

/-- A move between two places that are not {lit}`reading` keeps the readers. -/
theorem readers_update_of_ne {pc : Thread → Pc} {thread : Thread} {place : Pc}
    (hfrom : pc thread ≠ .reading) (hto : place ≠ .reading) :
    readers (Function.update pc thread place) = readers pc := by
  ext other
  by_cases h : other = thread
  · subst h
    simp [hfrom, hto]
  · simp [h]

/-- Registering adds the thread to the readers. -/
theorem card_readers_register {pc : Thread → Pc} {thread : Thread}
    (hfrom : pc thread ≠ .reading) :
    (readers (Function.update pc thread .reading)).card = (readers pc).card + 1 := by
  have hinsert : readers (Function.update pc thread .reading) =
      insert thread (readers pc) := by
    ext other
    by_cases h : other = thread
    · subst h
      simp
    · simp [h]
  rw [hinsert, Finset.card_insert_of_notMem (by simpa using hfrom)]

/-- Deregistering removes the thread from the readers. -/
theorem card_readers_deregister {pc : Thread → Pc} {thread : Thread} {place : Pc}
    (hfrom : pc thread = .reading) (hto : place ≠ .reading) :
    (readers (Function.update pc thread place)).card + 1 = (readers pc).card := by
  have herase : readers (Function.update pc thread place) =
      (readers pc).erase thread := by
    ext other
    by_cases h : other = thread
    · subst h
      simp [hto]
    · simp [h]
  rw [herase]
  exact Finset.card_erase_add_one (by simpa using hfrom)

/-- {lit}`fields_lock` is held exactly inside a writer's section, and
{lit}`num_readers` counts the readers outside one; inside there is none. -/
structure Counted (s : State Thread) : Prop where
  owner : ∀ thread, s.fieldsOwner = some thread ↔ s.pc thread = .writerSection
  free : s.fieldsOwner = none → s.numReaders = (readers s.pc).card
  held : ∀ thread, s.fieldsOwner = some thread → s.numReaders = -1 ∧ readers s.pc = ∅

omit [DecidableEq Thread] in
theorem Counted.nobodyInside {s : State Thread} (h : Counted s)
    (hfree : s.fieldsOwner = none) (thread : Thread) : s.pc thread ≠ .writerSection := by
  intro hpc
  have howner := (h.owner thread).mpr hpc
  rw [hfree] at howner
  contradiction

/-- A move that touches neither the section nor the readers keeps the count. -/
theorem Counted.goto {s : State Thread} (h : Counted s) {thread : Thread} {place : Pc}
    (hfrom : s.pc thread ≠ .reading) (hfrom' : s.pc thread ≠ .writerSection)
    (hto : place ≠ .reading) (hto' : place ≠ .writerSection)
    (writeOwner : Option Thread) :
    Counted { s.goto thread place with writeOwner := writeOwner } where
  owner other := by
    by_cases hother : other = thread
    · subst hother
      simp [State.goto, h.owner, hfrom', hto']
    · simp [State.goto, h.owner, hother]
  free hfree := by
    simp only [State.goto]
    rw [readers_update_of_ne hfrom hto]
    exact h.free hfree
  held other hheld := by
    simp only [State.goto]
    rw [readers_update_of_ne hfrom hto]
    exact h.held other hheld

/-- A writer that finds no reader enters a section without readers. -/
theorem Counted.enterSection {s : State Thread} (h : Counted s) {thread : Thread}
    (hpc : s.pc thread = .writerReady) (hfree : s.fieldsOwner = none)
    (hnone : s.numReaders ≤ 0) :
    Counted { s.goto thread .writerSection with
      fieldsOwner := some thread, numReaders := -1 } where
  owner other := by
    by_cases hother : other = thread
    · subst hother
      simp [State.goto]
    · have hoff := h.nobodyInside hfree other
      simp [State.goto, hother, hoff, Ne.symm hother]
  free hfree' := by simp at hfree'
  held other _ := by
    refine ⟨rfl, ?_⟩
    have hcount := h.free hfree
    simp only [State.goto]
    rw [readers_update_of_ne (by simp [hpc]) (by simp), ← Finset.card_eq_zero]
    omega

/-- A writer leaves with the counter at zero and no reader registered. -/
theorem Counted.leaveSection {s : State Thread} (h : Counted s) {thread : Thread}
    (hpc : s.pc thread = .writerSection) :
    Counted { s.goto thread .writerUnlock with fieldsOwner := none, numReaders := 0 } where
  owner other := by
    have howner := (h.owner thread).mpr hpc
    by_cases hother : other = thread
    · subst hother
      simp [State.goto]
    · have hoff : s.pc other ≠ .writerSection := by
        intro hin
        have hsame := (h.owner other).mpr hin
        rw [howner] at hsame
        exact hother (Option.some.inj hsame).symm
      simp [State.goto, hother, hoff]
  free _ := by
    have hempty := (h.held thread ((h.owner thread).mpr hpc)).2
    simp only [State.goto]
    rw [readers_update_of_ne (by simp [hpc]) (by simp), hempty]
    rfl
  held other hheld := by simp at hheld

theorem Counted.register {s : State Thread} (h : Counted s) {thread : Thread}
    (hpc : s.pc thread = .readerReady) (hfree : s.fieldsOwner = none) :
    Counted { s.goto thread .reading with numReaders := s.numReaders + 1 } where
  owner other := by
    by_cases hother : other = thread
    · subst hother
      simp [State.goto, hfree]
    · simp [State.goto, h.owner, hother]
  free _ := by
    simp only [State.goto]
    rw [card_readers_register (by simp [hpc]), h.free hfree]
    push_cast
    rfl
  held other hheld := by
    simp only [State.goto] at hheld
    rw [hfree] at hheld
    contradiction

theorem Counted.deregister {s : State Thread} (h : Counted s) {thread : Thread}
    (hpc : s.pc thread = .reading) (hfree : s.fieldsOwner = none) :
    Counted { s.goto thread .outside with numReaders := s.numReaders - 1 } where
  owner other := by
    by_cases hother : other = thread
    · subst hother
      simp [State.goto, hfree]
    · simp [State.goto, h.owner, hother]
  free _ := by
    have hcard := card_readers_deregister hpc (show Pc.outside ≠ .reading by simp)
    simp only [State.goto]
    rw [h.free hfree]
    omega
  held other hheld := by
    simp only [State.goto] at hheld
    rw [hfree] at hheld
    contradiction

/-- Every step without a late reader keeps the count, one case per move. -/
theorem Counted.move {s t : State Thread} (h : Counted s) {thread : Thread} {m : Move}
    (hguard : NoLateReader s (thread, m)) (hmove : move s thread m = some t) :
    Counted t := by
  cases m with
  | call operation =>
      simp only [ReaderWriter.move] at hmove
      split at hmove
      · rename_i hpc
        cases operation <;> cases hmove <;>
          exact h.goto (by simp [hpc]) (by simp [hpc]) (by simp) (by simp) s.writeOwner
      · contradiction
  | lockWrite =>
      simp only [ReaderWriter.move] at hmove
      split at hmove
      · rename_i hpc
        cases hmove
        exact h.goto (by simp [hpc]) (by simp [hpc]) (by simp) (by simp) _
      · contradiction
  | spin =>
      simp only [ReaderWriter.move] at hmove
      cases hpc : s.pc thread <;> simp only [hpc] at hmove <;> try contradiction
      all_goals
        split at hmove
        · cases hmove
          exact h
        · cases hmove
          exact h.goto (by simp [hpc]) (by simp [hpc]) (by simp) (by simp) s.writeOwner
  | enterSection =>
      simp only [ReaderWriter.move] at hmove
      split at hmove
      · rename_i hpc
        cases hmove
        exact h.enterSection hpc.1 hpc.2 (hguard rfl)
      · contradiction
  | leaveSection =>
      simp only [ReaderWriter.move] at hmove
      split at hmove
      · rename_i hpc
        cases hmove
        exact h.leaveSection hpc
      · contradiction
  | unlockWrite =>
      simp only [ReaderWriter.move] at hmove
      split at hmove
      · rename_i hpc
        cases hmove
        exact h.goto (by simp [hpc]) (by simp [hpc]) (by simp) (by simp) none
      · contradiction
  | register =>
      simp only [ReaderWriter.move] at hmove
      split at hmove
      · rename_i hpc
        cases hmove
        exact h.register hpc.1 hpc.2
      · contradiction
  | deregister =>
      simp only [ReaderWriter.move] at hmove
      split at hmove
      · rename_i hpc
        cases hmove
        exact h.deregister hpc.1 hpc.2
      · contradiction

theorem counted_invariant :
    ((protocol Thread).guarded NoLateReader).Invariant Counted where
  initial := by
    rintro s rfl
    exact ⟨by simp [State.init], by simp [State.init, readers], by simp [State.init]⟩
  step := by
    rintro s ⟨thread, m⟩ t h ⟨hguard, hmove⟩
    exact h.move hguard hmove

/-! ## Safety -/

omit [DecidableEq Thread] in
theorem Counted.exclusion {s : State Thread} (h : Counted s) : Exclusion s := by
  intro writer reader hwriter hreader
  have hempty := (h.held writer ((h.owner writer).mpr hwriter)).2
  have hmem : reader ∈ readers s.pc := mem_readers.mpr hreader
  rw [hempty] at hmem
  exact absurd hmem (Finset.notMem_empty reader)

omit [DecidableEq Thread] in
theorem Counted.quietZero {s : State Thread} (h : Counted s) : QuietZero s := by
  intro hquiet
  have hfree : s.fieldsOwner = none := by
    cases hown : s.fieldsOwner with
    | none => rfl
    | some thread =>
        have hpc := (h.owner thread).mp hown
        rw [hquiet thread] at hpc
        contradiction
  have hnone : readers s.pc = ∅ := by
    ext thread
    simp [hquiet thread]
  rw [h.free hfree, hnone]
  rfl

/-- For any number of threads: along every interleaving in which no writer
takes {lit}`fields_lock` while {lit}`num_readers` counts readers, both
guarantees hold in every state. -/
theorem readerWriter_safe {s : State Thread}
    (hs : ((protocol Thread).guarded NoLateReader).Reachable s) :
    Exclusion s ∧ QuietZero s := by
  have h : Counted s := hs.invariant counted_invariant
  exact ⟨h.exclusion, h.quietZero⟩

/-- A writer waits for a reader in its spin loop and enters its section behind it; a reader that
comes then waits in turn. -/
theorem readerWriter_safe_inTurn :
    ∃ s : State (Fin 2), s.pc 0 = .writerSection ∧ s.pc 1 = .readerSpin ∧
      Exclusion s ∧ QuietZero s := by
  let system := (protocol (Fin 2)).guarded NoLateReader
  have hreading : system.Reachable _ :=
    .step (a := (1, .register))
      (.step (a := (1, .spin))
        (.step (a := (1, .call .get)) (.initial rfl) ⟨by decide, rfl⟩)
        ⟨by decide, rfl⟩)
      ⟨by decide, rfl⟩
  have hwaiting : system.Reachable _ :=
    .step (a := (0, .spin))
      (.step (a := (0, .lockWrite))
        (.step (a := (0, .call .put)) hreading ⟨by decide, rfl⟩)
        ⟨by decide, rfl⟩)
      ⟨by decide, rfl⟩
  have hinside : system.Reachable _ :=
    .step (a := (0, .enterSection))
      (.step (a := (0, .spin))
        (.step (a := (1, .deregister)) hwaiting ⟨by decide, rfl⟩)
        ⟨by decide, rfl⟩)
      ⟨by decide, rfl⟩
  have hturn : system.Reachable _ :=
    .step (a := (1, .spin))
      (.step (a := (1, .call .get)) hinside ⟨by decide, rfl⟩)
      ⟨by decide, rfl⟩
  exact ⟨_, rfl, rfl, readerWriter_safe hturn⟩

/-- A late entry breaks exclusion at once: the writer is inside and the counted
readers are still reading. -/
theorem lateEntry_breaks_exclusion {s t : State Thread}
    (hs : ((protocol Thread).guarded NoLateReader).Reachable s) {writer : Thread}
    (hlate : 0 < s.numReaders) (hstep : move s writer .enterSection = some t) :
    ¬ Exclusion t := by
  have h : Counted s := hs.invariant counted_invariant
  simp only [move] at hstep
  split at hstep
  · rename_i hpc
    have hcard : 0 < (readers s.pc).card := by
      have hcount := h.free hpc.2
      omega
    rcases Finset.card_pos.mp hcard with ⟨reader, hreader⟩
    have hne : reader ≠ writer := by
      rintro rfl
      rw [mem_readers.mp hreader] at hpc
      exact absurd hpc.1 (by simp)
    cases hstep
    intro hexcl
    refine hexcl writer reader (by simp [State.goto]) ?_
    simpa [State.goto, hne] using hreader
  · contradiction

/-! ## Progress -/

/-- How a move changes the program counter of its thread. -/
inductive Pc.Step : Pc → Move → Pc → Prop
  | callGet : Step .outside (.call .get) .readerSpin
  | callWriter {operation : Operation} (h : operation ≠ .get) :
      Step .outside (.call operation) .writerLock
  | lockWrite : Step .writerLock .lockWrite .writerSpin
  | writerWaits : Step .writerSpin .spin .writerSpin
  | writerLeaves : Step .writerSpin .spin .writerReady
  | readerWaits : Step .readerSpin .spin .readerSpin
  | readerLeaves : Step .readerSpin .spin .readerReady
  | enterSection : Step .writerReady .enterSection .writerSection
  | leaveSection : Step .writerSection .leaveSection .writerUnlock
  | unlockWrite : Step .writerUnlock .unlockWrite .outside
  | register : Step .readerReady .register .reading
  | deregister : Step .reading .deregister .outside

omit [Fintype Thread] in
/-- A move changes one program counter. -/
theorem move_pc {s t : State Thread} {thread : Thread} {m : Move}
    (hmove : move s thread m = some t) :
    Pc.Step (s.pc thread) m (t.pc thread) ∧ ∀ other, other ≠ thread → t.pc other = s.pc other := by
  have hgoto (pc : Pc) (other : Thread) (hother : other ≠ thread) :
      (s.goto thread pc).pc other = s.pc other := Function.update_of_ne hother _ _
  have hself (pc : Pc) : (s.goto thread pc).pc thread = pc := Function.update_self ..
  cases m with
  | call operation =>
      simp only [move] at hmove
      split_ifs at hmove with hpc
      rw [hpc]
      cases operation <;> cases hmove <;> refine ⟨?_, hgoto _⟩ <;> rw [hself]
      · exact .callWriter (by decide)
      · exact .callGet
      · exact .callWriter (by decide)
      · exact .callWriter (by decide)
  | spin =>
      simp only [move] at hmove
      cases hpc : s.pc thread <;> simp only [hpc] at hmove <;> try contradiction
      · split_ifs at hmove
        · cases hmove
          rw [hpc]
          exact ⟨.writerWaits, fun _ _ => rfl⟩
        · cases hmove
          refine ⟨?_, hgoto _⟩
          rw [hself]
          exact .writerLeaves
      · split_ifs at hmove
        · cases hmove
          rw [hpc]
          exact ⟨.readerWaits, fun _ _ => rfl⟩
        · cases hmove
          refine ⟨?_, hgoto _⟩
          rw [hself]
          exact .readerLeaves
  | lockWrite =>
      simp only [move] at hmove
      split_ifs at hmove with hpc
      cases hmove
      refine ⟨?_, hgoto _⟩
      simp only [hself, hpc.1]
      exact .lockWrite
  | enterSection =>
      simp only [move] at hmove
      split_ifs at hmove with hpc
      cases hmove
      refine ⟨?_, hgoto _⟩
      simp only [hself, hpc.1]
      exact .enterSection
  | leaveSection =>
      simp only [move] at hmove
      split_ifs at hmove with hpc
      cases hmove
      refine ⟨?_, hgoto _⟩
      simp only [hself, hpc]
      exact .leaveSection
  | unlockWrite =>
      simp only [move] at hmove
      split_ifs at hmove with hpc
      cases hmove
      refine ⟨?_, hgoto _⟩
      simp only [hself, hpc]
      exact .unlockWrite
  | register =>
      simp only [move] at hmove
      split_ifs at hmove with hpc
      cases hmove
      refine ⟨?_, hgoto _⟩
      simp only [hself, hpc.1]
      exact .register
  | deregister =>
      simp only [move] at hmove
      split_ifs at hmove with hpc
      cases hmove
      refine ⟨?_, hgoto _⟩
      simp only [hself, hpc.1]
      exact .deregister

/-- The places between {lit}`Pthread_mutex_lock(&self->write_lock)` and its unlock. -/
def Pc.holdsWrite : Pc → Bool
  | .writerSpin | .writerReady | .writerSection | .writerUnlock => true
  | _ => false

/-- {lit}`write_lock` is held by the thread that is between its lock and its unlock. -/
def WriteLocked (s : State Thread) : Prop :=
  ∀ thread, s.writeOwner = some thread ↔ (s.pc thread).holdsWrite = true

theorem Pc.Step.holdsWrite_eq {place place' : Pc} {m : Move} (h : Pc.Step place m place')
    (hlock : m ≠ .lockWrite) (hunlock : m ≠ .unlockWrite) :
    place'.holdsWrite = place.holdsWrite := by
  cases h <;> first | rfl | contradiction

omit [Fintype Thread] in
/-- Who holds {lit}`write_lock` after a move. -/
theorem move_writeOwner {s t : State Thread} {thread : Thread} {m : Move}
    (hmove : move s thread m = some t) :
    (m = .lockWrite ∧ s.writeOwner = none ∧ t.writeOwner = some thread) ∨
      (m = .unlockWrite ∧ t.writeOwner = none) ∨
        (m ≠ .lockWrite ∧ m ≠ .unlockWrite ∧ t.writeOwner = s.writeOwner) := by
  cases m with
  | lockWrite =>
      simp only [move] at hmove
      split_ifs at hmove with hpc
      cases hmove
      exact Or.inl ⟨rfl, hpc.2, rfl⟩
  | unlockWrite =>
      simp only [move] at hmove
      split_ifs at hmove
      cases hmove
      exact Or.inr (Or.inl ⟨rfl, rfl⟩)
  | call operation =>
      simp only [move] at hmove
      split_ifs at hmove
      refine Or.inr (Or.inr ⟨by simp, by simp, ?_⟩)
      cases operation <;> cases hmove <;> rfl
  | spin =>
      simp only [move] at hmove
      refine Or.inr (Or.inr ⟨by simp, by simp, ?_⟩)
      cases hpc : s.pc thread <;> simp only [hpc] at hmove <;> try contradiction
      all_goals
        split_ifs at hmove <;> cases hmove <;> rfl
  | _ =>
      simp only [move] at hmove
      split_ifs at hmove
      cases hmove
      exact Or.inr (Or.inr ⟨by simp, by simp, rfl⟩)

omit [Fintype Thread] in
theorem WriteLocked.move {s t : State Thread} (h : WriteLocked s) {thread : Thread} {m : Move}
    (hmove : move s thread m = some t) : WriteLocked t := by
  obtain ⟨hstep, hother⟩ := move_pc hmove
  intro other
  rcases move_writeOwner hmove with ⟨rfl, hfree, howner⟩ | ⟨rfl, howner⟩ | ⟨hlock, hunlock, howner⟩
  · generalize s.pc thread = place at hstep
    generalize hto : t.pc thread = place' at hstep
    cases hstep
    by_cases heq : other = thread
    · rw [heq, howner, hto]
      exact iff_of_true rfl rfl
    · have hnot := (h other).not
      rw [hfree] at hnot
      rw [howner, hother other heq]
      exact iff_of_false (fun h => heq (Option.some.inj h).symm) (hnot.mp (by simp))
  · generalize hfrom : s.pc thread = place at hstep
    generalize hto : t.pc thread = place' at hstep
    cases hstep
    have hheld : s.writeOwner = some thread := (h thread).mpr (by rw [hfrom]; rfl)
    rw [howner]
    refine iff_of_false (by simp) ?_
    by_cases heq : other = thread
    · rw [heq, hto]
      exact Bool.false_ne_true
    · rw [hother other heq, ← h other, hheld]
      exact fun h => heq (Option.some.inj h).symm
  · rw [howner, h other]
    by_cases heq : other = thread
    · rw [heq, hstep.holdsWrite_eq hlock hunlock]
    · rw [hother other heq]

/-- How far a thread is from the end of its operation. -/
def Pc.rank : Pc → Nat
  | .outside => 0
  | .writerUnlock | .reading => 1
  | .writerSection | .readerReady => 2
  | .writerReady | .readerSpin => 3
  | .writerSpin => 4
  | .writerLock => 5

/-- No deadlock: as long as an operation is in progress, some thread can make a step towards the
end of its operation that leaves no late reader. -/
theorem exists_advance {s : State Thread} (h : Counted s) (hlocked : WriteLocked s)
    {thread : Thread} (hbusy : s.pc thread ≠ .outside) :
    ∃ other m t, move s other m = some t ∧ NoLateReader s (other, m) ∧
      (t.pc other).rank < (s.pc other).rank := by
  have hadvance (other : Thread) (m : Move) (pc : Pc) {t : State Thread}
      (hmove : move s other m = some t) (hpc : t.pc = Function.update s.pc other pc)
      (hguard : NoLateReader s (other, m)) (hrank : pc.rank < (s.pc other).rank) :
      ∃ other m t, move s other m = some t ∧ NoLateReader s (other, m) ∧
        (t.pc other).rank < (s.pc other).rank := by
    refine ⟨other, m, t, hmove, hguard, ?_⟩
    rw [hpc, Function.update_self]
    exact hrank
  by_cases hsection : ∃ writer, s.pc writer = .writerSection
  · obtain ⟨writer, hpc⟩ := hsection
    exact hadvance writer .leaveSection .writerUnlock (if_pos hpc) rfl (by simp [NoLateReader])
      (by rw [hpc]; decide)
  have hfree : s.fieldsOwner = none := by
    cases howner : s.fieldsOwner with
    | none => rfl
    | some writer => exact absurd ⟨writer, (h.owner writer).mp howner⟩ hsection
  by_cases hreading : ∃ reader, s.pc reader = .reading
  · obtain ⟨reader, hpc⟩ := hreading
    exact hadvance reader .deregister .outside (if_pos ⟨hpc, hfree⟩) rfl
      (by simp [NoLateReader]) (by rw [hpc]; decide)
  -- nobody is inside, so the spin loops end
  have hnone : s.numReaders = 0 := by
    have hempty : readers s.pc = ∅ := by
      ext reader
      simpa using fun hpc => hreading ⟨reader, hpc⟩
    rw [h.free hfree, hempty]
    rfl
  have hholder (writer : Thread) (hholds : (s.pc writer).holdsWrite = true) :
      ∃ other m t, move s other m = some t ∧ NoLateReader s (other, m) ∧
        (t.pc other).rank < (s.pc other).rank := by
    cases hpc : s.pc writer with
    | writerSpin =>
        have hmove : move s writer .spin = some (s.goto writer .writerReady) := by
          simp [move, hpc, hnone]
        exact hadvance writer .spin .writerReady hmove rfl (by simp [NoLateReader])
          (by rw [hpc]; decide)
    | writerReady =>
        exact hadvance writer .enterSection .writerSection (if_pos ⟨hpc, hfree⟩) rfl
          (fun _ => hnone.le) (by rw [hpc]; decide)
    | writerUnlock =>
        exact hadvance writer .unlockWrite .outside (if_pos hpc) rfl (by simp [NoLateReader])
          (by rw [hpc]; decide)
    | writerSection => exact absurd ⟨writer, hpc⟩ hsection
    | _ =>
        rw [hpc] at hholds
        cases hholds
  cases hpc : s.pc thread with
  | outside => exact absurd hpc hbusy
  | writerLock =>
      cases howner : s.writeOwner with
      | none =>
          exact hadvance thread .lockWrite .writerSpin (if_pos ⟨hpc, howner⟩) rfl
            (by simp [NoLateReader]) (by rw [hpc]; decide)
      | some writer => exact hholder writer ((hlocked writer).mp howner)
  | readerSpin =>
      have hmove : move s thread .spin = some (s.goto thread .readerReady) := by
        simp [move, hpc, hnone]
      exact hadvance thread .spin .readerReady hmove rfl (by simp [NoLateReader])
        (by rw [hpc]; decide)
  | readerReady =>
      exact hadvance thread .register .reading (if_pos ⟨hpc, hfree⟩) rfl
        (by simp [NoLateReader]) (by rw [hpc]; decide)
  | reading => exact absurd ⟨thread, hpc⟩ hreading
  | _ => exact hholder thread (by rw [hpc]; rfl)

/-! ## The window -/

/-- Perform a list of steps. -/
def runMoves (s : State Thread) : List (Thread × Move) → Option (State Thread)
  | [] => some s
  | (thread, m) :: moves => (move s thread m).bind fun t => runMoves t moves

omit [Fintype Thread] in
theorem reachable_of_runMoves {s t : State Thread} (hs : (protocol Thread).Reachable s)
    {moves : List (Thread × Move)} (hrun : runMoves s moves = some t) :
    (protocol Thread).Reachable t := by
  induction moves generalizing s with
  | nil =>
      cases hrun
      exact hs
  | cons label moves ih =>
      rcases label with ⟨thread, m⟩
      rcases Option.bind_eq_some_iff.mp hrun with ⟨u, hmove, hrest⟩
      exact ih (.step (a := (thread, m)) hs hmove) hrest

/-- The thread of two that calls {lit}`put` below. -/
def putter : Fin 2 := ⟨0, Nat.two_pos⟩

/-- The thread of two that calls {lit}`get` below. -/
def getter : Fin 2 := ⟨1, Nat.one_lt_two⟩

/-- The {lit}`put` leaves its spin loop, the {lit}`get` registers as a reader,
and the {lit}`put` enters its section. -/
def lateEntry : List (Fin 2 × Move) :=
  [(putter, .call .put), (putter, .lockWrite), (putter, .spin),
    (getter, .call .get), (getter, .spin), (getter, .register), (putter, .enterSection)]

/-- Both threads finish: the writer resets the counter, then the reader
decrements it. -/
def lateExit : List (Fin 2 × Move) :=
  [(putter, .leaveSection), (putter, .unlockWrite), (getter, .deregister)]

/-- Neither guarantee holds of every interleaving of two threads. -/
theorem readerWriter_unsafe :
    (¬ ∀ s, (protocol (Fin 2)).Reachable s → Exclusion s) ∧
      ¬ ∀ s, (protocol (Fin 2)).Reachable s → QuietZero s := by
  constructor
  · intro hall
    have hreach := reachable_of_runMoves (.initial rfl)
      (show runMoves State.init lateEntry = some _ from rfl)
    exact hall _ hreach putter getter (by decide) (by decide)
  · intro hall
    have hreach := reachable_of_runMoves (.initial rfl)
      (show runMoves State.init (lateEntry ++ lateExit) = some _ from rfl)
    have hzero := hall _ hreach (by decide)
    exact absurd hzero (by decide)

end SystemFundamentals.Cream.ReaderWriter
