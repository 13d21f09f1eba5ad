import SystemFundamentals.Cream.LiveSlots

/-!
# Concurrent insertions into a nearly full map

{lit}`put` looks at the counter before it takes its locks and relies on the answer when it
holds them, so several threads can pass the test while one slot is left.  Here each thread
inserts one entry without {lit}`force`, in two steps: the test, and the section under the
locks.

Main results:

- Theorem {lit}`put_eq_putTest`: {lit}`put` is the test followed by the locked section.
- Theorem {lit}`insertions_safe`: as long as no more threads pass the test than slots are
  left, and no key is taken for another, no entry is lost and as many threads succeed as there
  are slots for; after any other step this can fail.
-/

namespace SystemFundamentals.Cream

open Library

variable {cap : Nat} [NeZero cap] {hashFunction : List UInt8 → UInt32} {map : HashMap cap}
  {key val : Buffer}

/-! ## The two steps of `put` -/

omit [NeZero cap] in
/-- The tests {lit}`put` makes before it takes the locks, with the error they set. -/
def putTest (self : HashMap cap) (force : Bool) : Option Errno :=
  if self.invalid then some .EINVAL
  else if UInt32.ofNat cap = self.size ∧ force = false then some .ENOMEM
  else none

/-- {lit}`put` is the test followed by the locked section, once no reader is left. -/
theorem put_eq_putTest (hashFunction : List UInt8 → UInt32) (self : HashMap cap)
    (key val : Buffer) (force : Bool) :
    put hashFunction self (some key) (some val) force =
      match putTest self force with
      | some errno => .ok ⟨self, false, some errno⟩
      | none =>
          if 0 < self.numReaders then .error .spin
          else putLocked hashFunction self key val force := by
  by_cases hinvalid : self.invalid = true
  · simp only [put, putTest, if_pos hinvalid]
  · by_cases hfull : UInt32.ofNat cap = self.size ∧ force = false
    · simp only [put, putTest, if_neg hinvalid, if_pos hfull]
    · simp only [put, putTest, if_neg hinvalid, if_neg hfull]

/-- What the locked section of an unforced {lit}`put` does. -/
inductive LockedCase (hashFunction : List UInt8 → UInt32) (map : HashMap cap)
    (key val : Buffer) : Except Stop (Reply cap Bool) → Prop
  | entered (habsent : ¬ Present hashFunction map key) (i : Fin cap)
      (hdead : (map.nodes i).live = false) :
      LockedCase hashFunction map key val (.ok ⟨{ map with
        nodes := Function.update map.nodes i ⟨some key, some val, false⟩
        size := map.size + 1 }, true, none⟩)
  | overwritten (i : Fin cap) (hhas : nodeHasKey (map.nodes i) (some key) = true)
      (hpresent : Present hashFunction map key) (stored : Buffer) :
      LockedCase hashFunction map key val (.ok ⟨{ map with
        nodes := Function.update map.nodes i ⟨some stored, some val, false⟩
        size := map.size + 1 }, true, none⟩)
  | missing (habsent : ¬ Present hashFunction map key)
      (hall : ∀ i, (map.nodes i).live = true) :
      LockedCase hashFunction map key val (.error .nullDeref)

theorem putLocked_case (hidle : Idle map) :
    LockedCase hashFunction map key val (putLocked hashFunction map key val false) := by
  have hreaders : map.numReaders = 0 := hidle.noReaders
  have hvalid : ¬ map.invalid = true := by simp [hidle.valid]
  have hcase := putNode_case hashFunction map key val false
  rw [putLocked, if_neg hvalid]
  generalize putNode hashFunction map key val false = after at hcase
  cases hcase with
  | replace _ hforce => cases hforce
  | insert _ e he hpass hempty =>
      have hfind := findSlot_eq_none_of_passed he.le hpass (Or.inr hempty)
      simp only [← hreaders]
      exact .entered (not_present_of_findSlot hfind) _ (live_of_empty hempty)
  | overwrite _ e he hpass hhas stored hstored =>
      have hfind : findSlot map.nodes (getIndex hashFunction key) key =
          some (Ring.along (getIndex hashFunction key) e) :=
        findSlot_eq_some_iff.mpr ⟨hhas, by rwa [Ring.dist_along he]⟩
      rcases (nodeHasKey_iff _ _).mp hhas with ⟨_, old, hold, _⟩
      have hkey : stored = some (if e = 0 then key else old) := by
        rw [hstored, hold]
        split <;> rfl
      subst hkey
      simp only [← hreaders]
      exact .overwritten _ hhas (present_iff.mpr ⟨_, hfind⟩) _
  | reuse _ hpass x hx htomb =>
      have hfind := findSlot_eq_none_of_passed le_rfl hpass (Or.inl rfl)
      simp only [← hreaders]
      exact .entered (not_present_of_findSlot hfind) _ (live_of_tombstone htomb)
  | missing _ hpass hnone =>
      have hfind := findSlot_eq_none_of_passed le_rfl hpass (Or.inl rfl)
      refine .missing (not_present_of_findSlot hfind) fun i => ?_
      have hput := hpass _ (Ring.dist_lt (getIndex hashFunction key) i)
      rw [Ring.along_dist] at hput
      exact live_of_cannotPut (hnone i) hput

/-! ## The threads -/

/-- Where the {lit}`put` of a thread stands. -/
inductive PutPhase
  | start
  | passed
  | done (stored : Bool)
deriving DecidableEq

def PutPhase.isPassed (phase : PutPhase) : Bool :=
  phase == .passed

def PutPhase.isStored (phase : PutPhase) : Bool :=
  phase == .done true

/-- The map, the threads and, after undefined behaviour, what stopped them. -/
structure Insertions (cap : Nat) (Thread : Type) where
  map : HashMap cap
  phase : Thread → PutPhase
  stopped : Option Stop

/-- The steps of a thread. -/
inductive InsertionStep
  | test
  | locked
deriving DecidableEq

variable {Thread : Type} [Fintype Thread] [DecidableEq Thread]

/-- Thread {lit}`thread` inserts the value {lit}`val thread` under {lit}`key thread`. -/
inductive InsertionMoves (hashFunction : List UInt8 → UInt32) (key val : Thread → Buffer) :
    Insertions cap Thread → Thread × InsertionStep → Insertions cap Thread → Prop
  | refused {s : Insertions cap Thread} {thread : Thread} {errno : Errno} :
      s.stopped = none → s.phase thread = .start → putTest s.map false = some errno →
      InsertionMoves hashFunction key val s (thread, .test)
        { s with phase := Function.update s.phase thread (.done false) }
  | passed {s : Insertions cap Thread} {thread : Thread} :
      s.stopped = none → s.phase thread = .start → putTest s.map false = none →
      InsertionMoves hashFunction key val s (thread, .test)
        { s with phase := Function.update s.phase thread .passed }
  | locked {s : Insertions cap Thread} {thread : Thread} {reply : Reply cap Bool} :
      s.stopped = none → s.phase thread = .passed →
      putLocked hashFunction s.map (key thread) (val thread) false = .ok reply →
      InsertionMoves hashFunction key val s (thread, .locked)
        { s with
          map := reply.self
          phase := Function.update s.phase thread (.done reply.ret) }
  | stopped {s : Insertions cap Thread} {thread : Thread} {stop : Stop} :
      s.stopped = none → s.phase thread = .passed →
      putLocked hashFunction s.map (key thread) (val thread) false = .error stop →
      InsertionMoves hashFunction key val s (thread, .locked) { s with stopped := some stop }

/-- Threads that each insert one entry into a fresh map. -/
def insertionSystem (cap : Nat) [NeZero cap] (hashFunction : List UInt8 → UInt32)
    (key val : Thread → Buffer) : System (Insertions cap Thread) (Thread × InsertionStep) where
  initial s := s = ⟨createMap cap, fun _ => .start, none⟩
  step := InsertionMoves hashFunction key val

variable {s t : Insertions cap Thread} {key val : Thread → Buffer} {thread : Thread}

omit [NeZero cap] [DecidableEq Thread] in
/-- The threads between the test and the locked section. -/
def Insertions.pending (s : Insertions cap Thread) : Nat :=
  tally PutPhase.isPassed s.phase

omit [NeZero cap] [DecidableEq Thread] in
/-- The threads whose {lit}`put` has succeeded. -/
def Insertions.stored (s : Insertions cap Thread) : Nat :=
  tally PutPhase.isStored s.phase

/-- What the insertions should guarantee. -/
structure InsertionsSafe (hashFunction : List UInt8 → UInt32) (key val : Thread → Buffer)
    (s : Insertions cap Thread) : Prop where
  /-- No thread has written through a null pointer. -/
  running : s.stopped = none
  /-- A locked section that runs on a table full of other keys fails and changes nothing. -/
  refuses : ∀ thread, s.phase thread = .passed →
    (∀ i, (s.map.nodes i).live = true ∧ nodeHasKey (s.map.nodes i) (some (key thread)) = false) →
      ∃ errno, putLocked hashFunction s.map (key thread) (val thread) false =
        .ok ⟨s.map, false, errno⟩
  /-- The entry of every thread that succeeded is live. -/
  entries : ∀ thread, s.phase thread = .done true →
    ∃ i, Holds s.map.nodes i (key thread) ∧ (s.map.nodes i).val = some (val thread)
  /-- When all threads are done, as many have succeeded as there are slots for. -/
  succeeded : (∀ thread, ∃ stored, s.phase thread = .done stored) →
    s.stored = min (Fintype.card Thread) cap

/-- A thread may pass the test only while the slots that are not live outnumber the threads
that have passed it; a locked section may run only if its key is not taken for one that is
live. -/
def RoomForAll (hashFunction : List UInt8 → UInt32) (key : Thread → Buffer)
    (s : Insertions cap Thread) : Thread × InsertionStep → Prop
  | (_, .test) => UInt32.ofNat cap = s.map.size ∨ liveCount s.map + s.pending < cap
  | (thread, .locked) => ¬ Present hashFunction s.map (key thread)

/-! ## The invariant -/

/-- The counter is right, every live slot is the entry of a thread that succeeded, and there
is room for the threads that have passed the test. -/
structure Accounted (key val : Thread → Buffer) (s : Insertions cap Thread) : Prop where
  running : s.stopped = none
  idle : Idle s.map
  accurate : SizeAccurate s.map
  owned : liveCount s.map = s.stored
  room : liveCount s.map + s.pending ≤ cap
  entries : ∀ thread, s.phase thread = .done true →
    ∃ i, Holds s.map.nodes i (key thread) ∧ (s.map.nodes i).val = some (val thread)
  full : ∀ thread, s.phase thread = .done false → liveCount s.map = cap

omit [NeZero cap] [DecidableEq Thread] in
theorem pending_pos (hthread : s.phase thread = .passed) : 0 < s.pending := by
  refine tally_pos (i := thread) ?_
  rw [hthread]
  rfl

omit [NeZero cap] in
/-- What the counts are once a thread has passed the test. -/
theorem passed_counts (hstart : s.phase thread = .start) :
    tally PutPhase.isPassed (Function.update s.phase thread .passed) = s.pending + 1 ∧
      tally PutPhase.isStored (Function.update s.phase thread .passed) = s.stored :=
  ⟨tally_update_enter (by rw [hstart]; rfl) rfl, tally_update_same (by rw [hstart]; rfl)⟩

omit [NeZero cap] in
/-- What the counts are once its {lit}`put` has succeeded. -/
theorem stored_counts (hpassed : s.phase thread = .passed) :
    tally PutPhase.isPassed (Function.update s.phase thread (.done true)) + 1 = s.pending ∧
      tally PutPhase.isStored (Function.update s.phase thread (.done true)) = s.stored + 1 :=
  ⟨tally_update_leave (by rw [hpassed]; rfl) rfl, tally_update_enter (by rw [hpassed]; rfl) rfl⟩

omit [NeZero cap] in
/-- How many slots are live once an entry has filled one that was not. -/
theorem liveCount_fill {i : Fin cap} (hdead : (map.nodes i).live = false) (key val : Buffer) :
    tally MapNode.live (Function.update map.nodes i ⟨some key, some val, false⟩) =
      liveCount map + 1 :=
  tally_update_enter hdead rfl

omit [NeZero cap] [Fintype Thread] in
/-- A thread whose phase is not the new one has not moved. -/
theorem phase_of_update {phase : Thread → PutPhase} {new old : PutPhase} {other : Thread}
    (hne : new ≠ old) (h : Function.update phase thread new other = old) :
    phase other = old := by
  by_cases hother : other = thread
  · subst hother
    rw [Function.update_self] at h
    exact absurd h hne
  · rwa [Function.update_of_ne hother] at h

omit [NeZero cap] in
/-- A refused thread has seen a full table. -/
theorem Accounted.refused (hcap : cap < 2 ^ 32) (h : Accounted key val s) {errno : Errno}
    (hstart : s.phase thread = .start) (htest : putTest s.map false = some errno) :
    Accounted key val { s with phase := Function.update s.phase thread (.done false) } := by
  have hfull : UInt32.ofNat cap = s.map.size := by
    by_contra hroom
    simp [putTest, h.idle.valid, hroom] at htest
  have hlive : liveCount s.map = cap := by
    rw [← h.accurate, ← hfull]
    exact UInt32.toNat_ofNat_of_lt' hcap
  have hpending : tally PutPhase.isPassed (Function.update s.phase thread (.done false)) =
      s.pending := tally_update_same (by rw [hstart]; rfl)
  have hstored : tally PutPhase.isStored (Function.update s.phase thread (.done false)) =
      s.stored := tally_update_same (by rw [hstart]; rfl)
  exact
    { running := h.running
      idle := h.idle
      accurate := h.accurate
      owned := h.owned.trans hstored.symm
      room := by
        show liveCount s.map + tally _ _ ≤ cap
        rw [hpending]
        exact h.room
      entries := fun other hother => h.entries other (phase_of_update (by simp) hother)
      full := fun _ _ => hlive }

/-- A thread that passes the test while there is room for it. -/
theorem Accounted.passed (h : Accounted key val s) (hstart : s.phase thread = .start)
    (htest : putTest s.map false = none)
    (hroom : RoomForAll hashFunction key s (thread, .test)) :
    Accounted key val { s with phase := Function.update s.phase thread .passed } := by
  have hlt : liveCount s.map + s.pending < cap := by
    refine Or.resolve_left hroom fun hfull => ?_
    simp [putTest, h.idle.valid, hfull] at htest
  rcases passed_counts hstart with ⟨hpending, hstored⟩
  exact
    { running := h.running
      idle := h.idle
      accurate := h.accurate
      owned := h.owned.trans hstored.symm
      room := by
        show liveCount s.map + tally _ _ ≤ cap
        rw [hpending]
        omega
      entries := fun other hother => h.entries other (phase_of_update (by simp) hother)
      full := fun other hother => h.full other (phase_of_update (by simp) hother) }

omit [NeZero cap] in
/-- A thread that has passed the test fills a slot that is not live. -/
theorem Accounted.enter (hcap : cap < 2 ^ 32) (h : Accounted key val s)
    (hpassed : s.phase thread = .passed) {i : Fin cap} (hdead : (s.map.nodes i).live = false) :
    Accounted key val
      { s with
        map := { s.map with
          nodes := Function.update s.map.nodes i ⟨some (key thread), some (val thread), false⟩
          size := s.map.size + 1 }
        phase := Function.update s.phase thread (.done true) } := by
  have hroom := h.room
  have hpos := pending_pos hpassed
  have hlive := liveCount_fill hdead (key thread) (val thread)
  rcases stored_counts hpassed with ⟨hpending, hstored⟩
  refine
    { running := h.running
      idle := ⟨h.idle.valid, h.idle.noReaders⟩
      accurate := ?_
      owned := ?_
      room := ?_
      entries := ?_
      full := ?_ }
  · have haccurate : s.map.size.toNat = liveCount s.map := h.accurate
    have hone : (1 : UInt32).toNat = 1 := rfl
    show (s.map.size + 1).toNat = tally MapNode.live _
    rw [hlive, UInt32.toNat_add, hone, haccurate]
    exact Nat.mod_eq_of_lt (by omega)
  · show tally MapNode.live _ = tally PutPhase.isStored _
    rw [hlive, hstored, h.owned]
  · show tally MapNode.live _ + tally PutPhase.isPassed _ ≤ cap
    rw [hlive]
    dsimp only
    omega
  · intro other hother
    dsimp only at hother
    by_cases heq : other = thread
    · subst heq
      exact ⟨i, holds_update_iff.mpr (Or.inl ⟨rfl, rfl, rfl⟩), by simp⟩
    · rw [Function.update_of_ne heq] at hother
      rcases h.entries other hother with ⟨j, hj, hval⟩
      have hji : j ≠ i := by
        rintro rfl
        simp [MapNode.live, hj.1, hj.2] at hdead
      exact ⟨j, holds_update_iff.mpr (Or.inr ⟨hji, hj⟩), by simp [hji, hval]⟩
  · intro other hother
    have hfull := h.full other (phase_of_update (by simp) hother)
    omega

/-- A locked section with room and a key of its own stores its entry. -/
theorem Accounted.locked (hcap : cap < 2 ^ 32) (h : Accounted key val s)
    (hpassed : s.phase thread = .passed)
    (habsent : ¬ Present hashFunction s.map (key thread)) {reply : Reply cap Bool}
    (hlocked : putLocked hashFunction s.map (key thread) (val thread) false = .ok reply) :
    Accounted key val
      { s with
        map := reply.self
        phase := Function.update s.phase thread (.done reply.ret) } := by
  have hcase : LockedCase hashFunction s.map (key thread) (val thread) _ :=
    putLocked_case h.idle
  rw [hlocked] at hcase
  cases hcase with
  | entered _ i hdead => exact h.enter hcap hpassed hdead
  | overwritten _ _ hpresent _ => exact absurd hpresent habsent

omit [DecidableEq Thread] in
/-- With room left no locked section stops. -/
theorem Accounted.putLocked_ne_error (h : Accounted key val s)
    (hpassed : s.phase thread = .passed) {stop : Stop} :
    putLocked hashFunction s.map (key thread) (val thread) false ≠ .error stop := by
  intro herror
  have hcase : LockedCase hashFunction s.map (key thread) (val thread) _ :=
    putLocked_case h.idle
  rw [herror] at hcase
  have hroom := h.room
  have hpos := pending_pos hpassed
  cases hcase with
  | missing _ hall =>
      have hfull := liveCount_eq_cap_iff.mpr hall
      omega

/-- The runs in which there is always room. -/
def roomySystem (cap : Nat) [NeZero cap] (hashFunction : List UInt8 → UInt32)
    (key val : Thread → Buffer) : System (Insertions cap Thread) (Thread × InsertionStep) :=
  (insertionSystem cap hashFunction key val).guarded (RoomForAll hashFunction key)

theorem accounted_invariant (hcap : cap < 2 ^ 32) :
    (roomySystem cap hashFunction key val).Invariant (Accounted key val) where
  initial := by
    rintro s rfl
    exact
      { running := rfl
        idle := ⟨rfl, rfl⟩
        accurate := liveCount_createMap.symm
        owned := liveCount_createMap.trans (tally_const_of_fail rfl).symm
        room := by
          have hpending : tally PutPhase.isPassed (fun _ : Thread => .start) = 0 :=
            tally_const_of_fail rfl
          show liveCount (createMap cap) + tally _ _ ≤ cap
          rw [liveCount_createMap, hpending]
          exact Nat.zero_le cap
        entries := nofun
        full := nofun }
  step := by
    rintro s ⟨thread, step⟩ t h ⟨hroom, hstep⟩
    cases hstep with
    | refused _ hstart htest => exact h.refused hcap hstart htest
    | passed _ hstart htest => exact h.passed hstart htest hroom
    | locked _ hpassed hlocked => exact h.locked hcap hpassed hroom hlocked
    | stopped _ hpassed herror => exact absurd herror (h.putLocked_ne_error hpassed)

omit [NeZero cap] [DecidableEq Thread] in
/-- Once all threads are done, each has stored its entry or has seen a full table. -/
theorem Accounted.succeeded (h : Accounted key val s)
    (hdone : ∀ thread, ∃ stored, s.phase thread = .done stored) :
    s.stored = min (Fintype.card Thread) cap := by
  have hle : s.stored ≤ Fintype.card Thread := tally_le_card
  have hcapLe := liveCount_le s.map
  have howned := h.owned
  by_cases hall : ∀ thread, (s.phase thread).isStored = true
  · have hfull : s.stored = Fintype.card Thread := tally_eq_card_iff.mpr hall
    omega
  · push Not at hall
    rcases hall with ⟨thread, hthread⟩
    rcases hdone thread with ⟨stored, hphase⟩
    cases stored with
    | true =>
        rw [hphase] at hthread
        exact absurd rfl hthread
    | false =>
        have hfull := h.full thread hphase
        omega

omit [DecidableEq Thread] in
/-- The invariant gives what the insertions should guarantee. -/
theorem Accounted.safe (h : Accounted key val s) : InsertionsSafe hashFunction key val s where
  running := h.running
  refuses := by
    intro thread hpassed hall
    -- no table is full while a thread is between its two steps
    have hroom := h.room
    have hpos := pending_pos hpassed
    have hfull := liveCount_eq_cap_iff.mpr fun i => (hall i).1
    omega
  entries := h.entries
  succeeded := h.succeeded

/-! ## After too many threads have passed the test -/

omit [DecidableEq Thread] in
/-- Distinct keys need distinct slots. -/
theorem InsertionsSafe.stored_le (h : InsertionsSafe hashFunction key val s)
    (hkey : Function.Injective key) : s.stored ≤ liveCount s.map := by
  choose! slot hslot using h.entries
  have hphase {thread : Thread} (hthread : thread ∈ positions PutPhase.isStored s.phase) :
      s.phase thread = .done true := by
    simpa [PutPhase.isStored] using hthread
  show (positions PutPhase.isStored s.phase).card ≤ (positions MapNode.live s.map.nodes).card
  refine Finset.card_le_card_of_injOn slot ?_ ?_
  · intro thread hthread
    rcases (hslot thread (hphase hthread)).1 with ⟨htomb, hstored⟩
    simp [MapNode.live, htomb, hstored]
  · intro a ha b hb hab
    have hholdsA := (hslot a (hphase ha)).1
    have hholdsB := (hslot b (hphase hb)).1
    rw [← hab] at hholdsB
    exact hkey (Option.some.inj (hholdsA.2.symm.trans hholdsB.2))

/-- A thread that overwrites a live entry as if it were its own. -/
theorem not_safe_of_overwritten (hkey : Function.Injective key)
    (howned : liveCount s.map = s.stored) (hpassed : s.phase thread = .passed) {i : Fin cap}
    (hhas : nodeHasKey (s.map.nodes i) (some (key thread)) = true) (stored : Buffer) :
    ¬ InsertionsSafe hashFunction key val
      { s with
        map := { s.map with
          nodes := Function.update s.map.nodes i ⟨some stored, some (val thread), false⟩
          size := s.map.size + 1 }
        phase := Function.update s.phase thread (.done true) } := by
  intro hsafe
  have hle : tally PutPhase.isStored (Function.update s.phase thread (.done true)) ≤
      tally MapNode.live
        (Function.update s.map.nodes i ⟨some stored, some (val thread), false⟩) :=
    hsafe.stored_le hkey
  rw [(stored_counts hpassed).2, tally_update_same (by rw [live_of_hasKey hhas]; rfl)] at hle
  have hcount : tally MapNode.live s.map.nodes = s.stored := howned
  omega

/-- More threads have passed the test than slots are left. -/
structure Overfull (s : Insertions cap Thread) : Prop where
  running : s.stopped = none
  idle : Idle s.map
  owned : liveCount s.map = s.stored
  crowded : cap < liveCount s.map + s.pending

omit [NeZero cap] in
theorem Overfull.enter (h : Overfull s) (hpassed : s.phase thread = .passed) {i : Fin cap}
    (hdead : (s.map.nodes i).live = false) :
    Overfull
        { s with
          map := { s.map with
            nodes := Function.update s.map.nodes i ⟨some (key thread), some (val thread), false⟩
            size := s.map.size + 1 }
          phase := Function.update s.phase thread (.done true) } ∧
      tally MapNode.live
          (Function.update s.map.nodes i ⟨some (key thread), some (val thread), false⟩) =
        liveCount s.map + 1 := by
  have hlive := liveCount_fill hdead (key thread) (val thread)
  rcases stored_counts hpassed with ⟨hpending, hstored⟩
  have hcrowded := h.crowded
  refine ⟨⟨h.running, ⟨h.idle.valid, h.idle.noReaders⟩, ?_, ?_⟩, hlive⟩
  · show tally MapNode.live _ = tally PutPhase.isStored _
    rw [hlive, hstored, h.owned]
  · show cap < tally MapNode.live _ + tally PutPhase.isPassed _
    rw [hlive]
    dsimp only
    omega

/-- A thread that has passed the test fills a slot, or the guarantee is lost. -/
theorem Overfull.exists_step (hashFunction : List UInt8 → UInt32) (val : Thread → Buffer)
    (hkey : Function.Injective key) (h : Overfull s) :
    ∃ thread t, (insertionSystem cap hashFunction key val).step s (thread, .locked) t ∧
      (¬ InsertionsSafe hashFunction key val t ∨
        Overfull t ∧ liveCount t.map = liveCount s.map + 1) := by
  have hle := liveCount_le s.map
  have hcrowded := h.crowded
  have hpending : 0 < s.pending := by omega
  rcases Finset.card_pos.mp hpending with ⟨thread, hmem⟩
  have hpassed : s.phase thread = .passed := by simpa [PutPhase.isPassed] using hmem
  have hcase : LockedCase hashFunction s.map (key thread) (val thread) _ :=
    putLocked_case h.idle
  refine ⟨thread, ?_⟩
  generalize hlocked :
    putLocked hashFunction s.map (key thread) (val thread) false = outcome at hcase
  cases hcase with
  | entered _ i hdead =>
      exact ⟨_, .locked h.running hpassed hlocked, Or.inr (h.enter hpassed hdead)⟩
  | overwritten i hhas _ stored =>
      exact ⟨_, .locked h.running hpassed hlocked,
        Or.inl (not_safe_of_overwritten hkey h.owned hpassed hhas stored)⟩
  | missing =>
      refine ⟨_, .stopped h.running hpassed hlocked, Or.inl fun hsafe => ?_⟩
      cases hsafe.running

/-- Let the threads go on: one of them loses an entry or writes through a null pointer. -/
theorem Overfull.exists_not_safe (hkey : Function.Injective key) (n : Nat) (h : Overfull s)
    (hcount : liveCount s.map + n = cap) :
    ∃ labels t, (insertionSystem cap hashFunction key val).Run s labels t ∧
      ¬ InsertionsSafe hashFunction key val t := by
  induction n generalizing s with
  | zero =>
      rcases h.exists_step hashFunction val hkey with
        ⟨thread, t, hstep, hunsafe | ⟨_, hlive⟩⟩
      · exact ⟨_, t, .cons hstep (.nil t), hunsafe⟩
      · have hle := liveCount_le t.map
        omega
  | succ n ih =>
      rcases h.exists_step hashFunction val hkey with
        ⟨thread, t, hstep, hunsafe | ⟨hover, hlive⟩⟩
      · exact ⟨_, t, .cons hstep (.nil t), hunsafe⟩
      · rcases ih hover (by omega) with ⟨labels, t', hrun, hunsafe⟩
        exact ⟨_, t', .cons hstep hrun, hunsafe⟩

/-- As long as no more threads pass the test than slots are left, and no key is taken for one
that is live, the insertions are safe.  After any other step there are steps that end this. -/
theorem insertions_safe (hashFunction : List UInt8 → UInt32) (hcap : cap < 2 ^ 32)
    (hkey : Function.Injective key) :
    (∀ s, (roomySystem cap hashFunction key val).Reachable s →
      InsertionsSafe hashFunction key val s) ∧
    ∀ s label t, (roomySystem cap hashFunction key val).Reachable s →
      (insertionSystem cap hashFunction key val).step s label t →
        ¬ RoomForAll hashFunction key s label →
          ∃ labels t', (insertionSystem cap hashFunction key val).Run t labels t' ∧
            ¬ InsertionsSafe hashFunction key val t' := by
  constructor
  · intro s hreach
    exact (hreach.invariant (accounted_invariant hcap)).safe
  · intro s label t hreach hstep hroom
    have h : Accounted key val s := hreach.invariant (accounted_invariant hcap)
    have hle := liveCount_le s.map
    cases hstep with
    | refused _ hstart htest =>
        refine absurd (Or.inl ?_) hroom
        by_contra hfull
        simp [putTest, h.idle.valid, hfull] at htest
    | @passed thread _ hstart htest =>
        have hfull : ¬ liveCount s.map + s.pending < cap := fun hlt => hroom (Or.inr hlt)
        rcases passed_counts hstart with ⟨hpending, hstored⟩
        have hover : Overfull { s with phase := Function.update s.phase thread .passed } := by
          refine ⟨h.running, h.idle, h.owned.trans hstored.symm, ?_⟩
          show cap < liveCount s.map + tally _ _
          rw [hpending]
          omega
        exact hover.exists_not_safe hkey (cap - liveCount s.map) (Nat.add_sub_cancel' hle)
    | @locked thread reply _ hpassed hlocked =>
        have hcase : LockedCase hashFunction s.map (key thread) (val thread) _ :=
          putLocked_case h.idle
        rw [hlocked] at hcase
        cases hcase with
        | entered habsent => exact absurd habsent hroom
        | overwritten i hhas _ stored =>
            exact ⟨[], _, .nil _, not_safe_of_overwritten hkey h.owned hpassed hhas stored⟩
    | stopped _ hpassed herror => exact absurd herror (h.putLocked_ne_error hpassed)

/-- The keys of two threads. -/
def twoKeys : Fin 2 → Buffer
  | 0 => .ofByte 97
  | _ => .ofByte 98

/-- Two slots, and two threads that have filled them. -/
def twoInsertions : Insertions 2 (Fin 2) where
  map := { createMap 2 with
    nodes := Function.update (Function.update (createMap 2).nodes ⟨0, Nat.two_pos⟩
      ⟨some (.ofByte 97), some (.ofByte 97), false⟩) (Fin.last 1)
        ⟨some (.ofByte 98), some (.ofByte 98), false⟩
    size := 2 }
  phase := Function.update (Function.update (Function.update (Function.update (fun _ => .start)
    ⟨0, Nat.two_pos⟩ .passed) (Fin.last 1) .passed) ⟨0, Nat.two_pos⟩ (.done true))
      (Fin.last 1) (.done true)
  stopped := none

/-- Both threads pass the test before one of them has the locks. -/
theorem twoInsertions_safe :
    InsertionsSafe (fun _ => 0) twoKeys twoKeys twoInsertions := by
  have hkey : Function.Injective twoKeys := by decide
  refine (insertions_safe (fun _ => 0) (by decide) hkey).1 _ ?_
  have hrun : (roomySystem 2 (fun _ => 0) twoKeys twoKeys).Run
      ⟨createMap 2, fun _ => .start, none⟩
        [(0, .test), (Fin.last 1, .test), (0, .locked), (Fin.last 1, .locked)] twoInsertions :=
    .cons ⟨Or.inr (by decide), .passed rfl rfl rfl⟩
      (.cons ⟨Or.inr (by decide), .passed rfl rfl rfl⟩
        (.cons ⟨not_present_of_findSlot rfl, .locked rfl rfl rfl⟩
          (.cons ⟨not_present_of_findSlot rfl, .locked rfl rfl rfl⟩ (.nil _))))
  exact hrun.reachable (.initial rfl)

/-- Two threads pass the test on a map with one slot, and the second one finds neither a slot
nor a tombstone. -/
theorem not_insertionsSafe :
    ¬ ∀ (cap : Nat) [NeZero cap], cap < 2 ^ 31 →
      ∀ (hashFunction : List UInt8 → UInt32) (N : Nat) (key val : Fin N → Buffer),
        Function.Injective key → ∀ s, (insertionSystem cap hashFunction key val).Reachable s →
          InsertionsSafe hashFunction key val s := by
  intro hall
  have hkey : Function.Injective twoKeys := by decide
  have hrun : (insertionSystem 1 (fun _ => 0) twoKeys twoKeys).Run
      ⟨createMap 1, fun _ => .start, none⟩
      [(0, .test), (Fin.last 1, .test), (0, .locked), (Fin.last 1, .locked)]
      { map := { createMap 1 with
          nodes := Function.update (createMap 1).nodes 0
            ⟨some (.ofByte 97), some (.ofByte 97), false⟩
          size := 1 }
        phase := Function.update (Function.update (Function.update (fun _ => .start) 0 .passed)
          (Fin.last 1) .passed) 0 (.done true)
        stopped := some .nullDeref } :=
    .cons (.passed rfl rfl rfl) (.cons (.passed rfl rfl rfl)
      (.cons (.locked rfl rfl rfl) (.cons (.stopped rfl rfl rfl) (.nil _))))
  have hsafe := hall 1 (by decide) (fun _ => 0) 2 twoKeys twoKeys hkey _
    (hrun.reachable (.initial rfl))
  cases hsafe.running

end SystemFundamentals.Cream
