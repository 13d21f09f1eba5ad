import SystemFundamentals.Cream.CallCases
import SystemFundamentals.Cream.ReaderWriter
import SystemFundamentals.Cream.Service
import Mathlib.Algebra.Order.BigOperators.Group.Finset

/-!
# The worker pool

The main thread of {lit}`hw5/src/cream.c` accepts connections and queues them, and the
workers take them off the queue, serve them and go back to {lit}`dequeue`.  A worker that
returns from the middle of {lit}`worker_thread` does not come back, and a NULL dereference
in {lit}`put` ends the process with all its threads.

The steps of the workers interleave.  A call on the map goes through the steps of
{lit}`ReaderWriter`; what it does to the nodes and the counter it does when a writer leaves its
section, and a {lit}`get` has its answer when it deregisters.  As long as no late reader meets a
writer, no other call is in between.  What a worker's {lit}`req_header` holds before the read is
not initialized and can be anything.

The response to a {lit}`GET` is written from the buffer in the map, after the call, and a
{lit}`CLEAR` frees the buffers of the map in its section.  A zero byte is taken to lie behind
every key, so that {lit}`strcmp` compares the bytes of the keys.

Main results:

- Theorem {lit}`receive_cases`: what a worker does with the request in its buffers.
- Theorem {lit}`Staffed.progress`: the calls in progress do not wait for each other for ever.
- Theorem {lit}`pool_full`: as long as the connections and the order of the steps are such,
  no worker is missing, and every call can be brought to its end.
-/

namespace SystemFundamentals.Cream

open Library
open ReaderWriter (Pc Move Counted WriteLocked)

/-! ## The pool -/

/-- Where a worker is.  It is gone when the thread has returned or the process has been
killed. -/
inductive Place
  | waiting
  | serving (stream : List UInt8)
  /-- In the call on the map for its request. -/
  | calling (request : Request)
  /-- Behind the section of its call, with the response to write. -/
  | answering (written : List UInt8)
  | gone
deriving DecidableEq

/-- The nodes and the counter of the cache, its locks and {lit}`num_readers`, the bytes that the
queued connections carry, and the workers. -/
structure Pool (cap workers : Nat) where
  nodes : Fin cap → MapNode
  size : UInt32
  protocol : ReaderWriter.State (Fin workers)
  requests : List (List UInt8)
  place : Fin workers → Place

/-- A connection is accepted, or a worker takes one, reads its request, goes on with its call or
writes its response. -/
inductive PoolEvent (workers : Nat)
  | accept (stream : List UInt8)
  | dequeue (worker : Fin workers)
  | receive (worker : Fin workers) (stale : RequestHeader)
  | move (worker : Fin workers) (move : Move)
  | answer (worker : Fin workers)

/-- The operation of the protocol that a request leads to. -/
def Request.operation : Request → ReaderWriter.Operation
  | .put _ _ => .put
  | .get _ => .get
  | .evict _ => .delete
  | .clear => .clearMap

/-- The request in the buffers of the worker after it has read from the connection. -/
def requestIn (stale : RequestHeader) (stream : List UInt8) : Option Request :=
  Served.request ⟨stale, stream, []⟩

/-- The moves behind which a call has done its work. -/
def takesEffect : Move → Bool
  | .leaveSection | .deregister => true
  | _ => false

variable {cap workers : Nat}

/-- The map as a call finds it that has its section to itself. -/
def Pool.cache (s : Pool cap workers) : HashMap cap :=
  ⟨s.size, s.nodes, 0, false⟩

theorem Pool.idle (s : Pool cap workers) : Idle s.cache := ⟨rfl, rfl⟩

variable [NeZero cap]

/-- The steps of the pool. -/
inductive PoolMoves (hashFunction : List UInt8 → UInt32) :
    Pool cap workers → PoolEvent workers → Pool cap workers → Prop
  | accept {s : Pool cap workers} (stream : List UInt8) :
      PoolMoves hashFunction s (.accept stream) { s with requests := s.requests ++ [stream] }
  | dequeue {s : Pool cap workers} {worker : Fin workers} {stream : List UInt8}
      {rest : List (List UInt8)} : s.place worker = .waiting → s.requests = stream :: rest →
      PoolMoves hashFunction s (.dequeue worker)
        { s with
          requests := rest
          place := Function.update s.place worker (.serving stream) }
  /-- The request leads to a call. -/
  | call {s : Pool cap workers} {worker : Fin workers} {stale : RequestHeader}
      {stream : List UInt8} {request : Request} {protocol : ReaderWriter.State (Fin workers)} :
      s.place worker = .serving stream → requestIn stale stream = some request →
      ReaderWriter.move s.protocol worker (.call request.operation) = some protocol →
      PoolMoves hashFunction s (.receive worker stale)
        { s with
          protocol := protocol
          place := Function.update s.place worker (.calling request) }
  /-- The request leads to no call. -/
  | refuse {s : Pool cap workers} {worker : Fin workers} {stale : RequestHeader}
      {stream : List UInt8} {outcome : Outcome cap} : s.place worker = .serving stream →
      requestIn stale stream = none →
      workerThread hashFunction s.cache stale stream = .ok outcome →
      PoolMoves hashFunction s (.receive worker stale)
        { s with
          place := Function.update s.place worker
            (if outcome.returned then .gone else .answering outcome.written) }
  | proceed {s : Pool cap workers} {worker : Fin workers} {m : Move} {request : Request}
      {protocol : ReaderWriter.State (Fin workers)} : s.place worker = .calling request →
      takesEffect m = false → ReaderWriter.move s.protocol worker m = some protocol →
      PoolMoves hashFunction s (.move worker m) { s with protocol := protocol }
  | effect {s : Pool cap workers} {worker : Fin workers} {m : Move} {request : Request}
      {protocol : ReaderWriter.State (Fin workers)} {outcome : Outcome cap} :
      s.place worker = .calling request → takesEffect m = true →
      ReaderWriter.move s.protocol worker m = some protocol →
      perform hashFunction s.cache request = .ok outcome →
      PoolMoves hashFunction s (.move worker m)
        { s with
          nodes := outcome.cache.nodes
          size := outcome.cache.size
          protocol := protocol
          place := Function.update s.place worker (.answering outcome.written) }
  | crash {s : Pool cap workers} {worker : Fin workers} {m : Move} {request : Request}
      {protocol : ReaderWriter.State (Fin workers)} : s.place worker = .calling request →
      takesEffect m = true → ReaderWriter.move s.protocol worker m = some protocol →
      perform hashFunction s.cache request = .error .nullDeref →
      PoolMoves hashFunction s (.move worker m) { s with place := fun _ => .gone }
  | unlock {s : Pool cap workers} {worker : Fin workers} {written : List UInt8}
      {protocol : ReaderWriter.State (Fin workers)} : s.place worker = .answering written →
      ReaderWriter.move s.protocol worker .unlockWrite = some protocol →
      PoolMoves hashFunction s (.move worker .unlockWrite) { s with protocol := protocol }
  | answer {s : Pool cap workers} {worker : Fin workers} {written : List UInt8} :
      s.place worker = .answering written → s.protocol.pc worker = .outside →
      PoolMoves hashFunction s (.answer worker)
        { s with place := Function.update s.place worker .waiting }

/-- The pool starts with an empty cache and all workers waiting. -/
def poolSystem (cap workers : Nat) [NeZero cap] (hashFunction : List UInt8 → UInt32) :
    System (Pool cap workers) (PoolEvent workers) where
  initial s := s = ⟨(createMap cap).nodes, 0, .init, [], fun _ => .waiting⟩
  step := PoolMoves hashFunction

omit [NeZero cap] in
/-- How many workers are still in the loop. -/
def inLoop (s : Pool cap workers) : Nat :=
  (Finset.univ.filter fun worker => s.place worker ≠ .gone).card

/-! ## The conditions -/

/-- The sizes of the request in the buffers are within the limits and reach the minima. -/
def Rejoins (stale : RequestHeader) (stream : List UInt8) : Prop :=
  let header := receivedHeader stale stream
  ¬ Oversized header ∧
    if header.requestCode = RequestCode.PUT then header.keySize ≠ 0 ∧ header.valueSize ≠ 0
    else if header.requestCode = RequestCode.GET ∨ header.requestCode = RequestCode.EVICT then
      header.keySize ≠ 0
    else True

instance (stale : RequestHeader) (stream : List UInt8) : Decidable (Rejoins stale stream) :=
  inferInstanceAs (Decidable (_ ∧ ite _ _ _))

/-- A {lit}`PUT` finds room in the map. -/
def FindsRoom (cache : HashMap cap) : Request → Prop
  | .put key _ => HasRoom cache (some key)
  | .get _ | .evict _ | .clear => True

/-- The request that a worker reads rejoins, and a {lit}`PUT` that takes effect has found
room. -/
def KeepsWorkers (s : Pool cap workers) : PoolEvent workers → Prop
  | .receive worker stale => ∀ stream, s.place worker = .serving stream → Rejoins stale stream
  | .move worker m => takesEffect m = true → ∀ request, s.place worker = .calling request →
      FindsRoom s.cache request
  | .accept _ | .dequeue _ | .answer _ => True

/-- A writer that enters its section finds no reader registered, and a {lit}`CLEAR` finds no
worker with a value to write. -/
def RaceFree (s : Pool cap workers) : PoolEvent workers → Prop
  | .move worker m => ReaderWriter.NoLateReader s.protocol (worker, m) ∧
      (m = .enterSection → s.place worker = .calling .clear →
        ∀ other written, s.place other = .answering written → written.length ≤ 8)
  | .accept _ | .dequeue _ | .receive _ _ | .answer _ => True

/-- The pool with such steps only. -/
def safePool (cap workers : Nat) [NeZero cap] (hashFunction : List UInt8 → UInt32) :
    System (Pool cap workers) (PoolEvent workers) :=
  (poolSystem cap workers hashFunction).guarded fun s event =>
    KeepsWorkers s event ∧ RaceFree s event

/-! ## The request and the call -/

variable {hashFunction : List UInt8 → UInt32}

private theorem size_lt_one_iff (size : UInt32) : size < 1 ↔ size = 0 := by
  rw [UInt32.lt_iff_toNat_lt, ← UInt32.toNat_inj]
  exact Nat.lt_one_iff

/-- A request that leads to a call rejoins.  Without a call the worker goes on exactly when the
request rejoins. -/
theorem receive_cases (hashFunction : List UInt8 → UInt32) (cache : HashMap cap)
    (stale : RequestHeader) (stream : List UInt8) :
    (∃ request, requestIn stale stream = some request ∧ Rejoins stale stream) ∨
      requestIn stale stream = none ∧
        ∃ outcome, workerThread hashFunction cache stale stream = .ok outcome ∧
          (outcome.returned = false ↔ Rejoins stale stream) := by
  unfold requestIn Served.request requestOf Rejoins workerThread
  generalize receivedHeader stale stream = header
  simp only
  by_cases hsize : Oversized header
  · simp only [if_pos hsize]
    exact Or.inr ⟨trivial, _, rfl, iff_of_false (by simp) fun h => h.1 hsize⟩
  have hkey := @toBuffer_received header.keySize (stream.drop 9)
  have hval := @toBuffer_received header.valueSize (stream.drop (9 + header.keySize.toNat))
  rw [← receivedKey] at hkey
  rw [← receivedVal] at hval
  simp only [size_lt_one_iff] at hkey hval
  unfold serve
  simp only [hsize, if_false, not_false_eq_true, true_and, minKeySize, minValueSize,
    size_lt_one_iff]
  by_cases hput : header.requestCode = RequestCode.PUT
  · simp only [if_pos hput]
    rcases hkey with ⟨hkeySize, hkey⟩ | ⟨hkeySize, key, -, hkey⟩
    · simp only [hkey, hkeySize, true_or, if_true]
      exact Or.inr ⟨trivial, _, rfl, iff_of_false (by simp [refuse]) fun h => h.1 rfl⟩
    rcases hval with ⟨hvalSize, hval⟩ | ⟨hvalSize, val, -, hval⟩
    · simp only [hkey, hval, hvalSize, or_true, if_true]
      exact Or.inr ⟨trivial, _, rfl, iff_of_false (by simp [refuse]) fun h => h.2 rfl⟩
    · simp only [hkey, hval]
      exact Or.inl ⟨_, rfl, hkeySize, hvalSize⟩
  simp only [if_neg hput]
  by_cases hget : header.requestCode = RequestCode.GET
  · simp only [hget, true_or, if_true]
    rcases hkey with ⟨hkeySize, hkey⟩ | ⟨hkeySize, key, -, hkey⟩
    · simp only [hkey, hkeySize, if_true, Option.map_none]
      exact Or.inr ⟨trivial, _, rfl, iff_of_false (by simp [refuse]) fun h => h rfl⟩
    · simp only [hkey, Option.map_some]
      exact Or.inl ⟨_, rfl, hkeySize⟩
  simp only [hget, if_false, false_or]
  by_cases hevict : header.requestCode = RequestCode.EVICT
  · simp only [if_pos hevict]
    rcases hkey with ⟨hkeySize, hkey⟩ | ⟨hkeySize, key, -, hkey⟩
    · simp only [hkey, hkeySize, if_true, Option.map_none]
      exact Or.inr ⟨trivial, _, rfl, iff_of_false (by simp [refuse]) fun h => h rfl⟩
    · simp only [hkey, Option.map_some]
      exact Or.inl ⟨_, rfl, hkeySize⟩
  simp only [if_neg hevict]
  by_cases hclear : header.requestCode = RequestCode.CLEAR
  · simp only [if_pos hclear]
    exact Or.inl ⟨_, rfl, trivial⟩
  · simp only [if_neg hclear]
    exact Or.inr ⟨trivial, _, rfl, iff_of_true rfl trivial⟩

/-- A call returns if a {lit}`PUT` finds room, and ends the process otherwise. -/
theorem perform_cases (hashFunction : List UInt8 → UInt32) {cache : HashMap cap}
    (hidle : Idle cache) (request : Request) :
    FindsRoom cache request ∧ (∃ outcome, perform hashFunction cache request = .ok outcome) ∨
      ¬ FindsRoom cache request ∧ perform hashFunction cache request = .error .nullDeref := by
  have hreturns {α : Type} {call : Except Stop (Reply cap α)} {answer : Reply cap α → Outcome cap}
      (hcall : ∃ reply, call = .ok reply) : ∃ outcome, call.map answer = .ok outcome := by
    obtain ⟨reply, rfl⟩ := hcall
    exact ⟨_, rfl⟩
  cases request with
  | put key val =>
      have hiff := put_returns_iff hashFunction cache key val
      simp only [hidle.valid, hidle.noReaders, Bool.false_eq_true, false_or, le_refl, true_and]
        at hiff
      by_cases hroom : HasRoom cache (some key)
      · exact Or.inl ⟨hroom, hreturns (hiff.mpr hroom)⟩
      · refine Or.inr ⟨hroom, ?_⟩
        cases hput : put hashFunction cache (some key) (some val) true with
        | ok reply => exact absurd (hiff.mp ⟨reply, hput⟩) hroom
        | error stop =>
            have hstop := ((put_eq_error_iff hidle).mp hput).1
            rw [perform, hput, hstop]
            rfl
  | get key => exact Or.inl ⟨trivial, hreturns ⟨_, get_of_idle hidle hashFunction key⟩⟩
  | evict key =>
      exact Or.inl ⟨trivial, hreturns ((delete_returns_iff hashFunction cache key).mpr
        (Or.inr hidle.noReaders.le))⟩
  | clear => exact Or.inl ⟨trivial, hreturns ⟨_, clearMap_of_idle hidle⟩⟩

/-! ## No worker is missing -/

omit [NeZero cap] in
theorem inLoop_eq_iff (s : Pool cap workers) :
    inLoop s = workers ↔ ∀ worker, s.place worker ≠ .gone := by
  have hcard : (Finset.univ : Finset (Fin workers)).card = workers := Finset.card_fin workers
  unfold inLoop
  constructor
  · intro h worker
    have hall : (Finset.univ.filter fun worker => s.place worker ≠ .gone) = Finset.univ :=
      Finset.eq_univ_of_card _ (h.trans (Fintype.card_fin workers).symm)
    have hmem := Finset.mem_univ worker
    rw [← hall] at hmem
    exact (Finset.mem_filter.mp hmem).2
  · intro h
    rw [Finset.filter_true_of_mem fun worker _ => h worker]
    exact hcard

omit [NeZero cap] in
/-- A worker that moves on is not gone. -/
theorem present_update {s : Pool cap workers} (h : ∀ worker, s.place worker ≠ .gone)
    {worker : Fin workers} {place : Place} (hplace : place ≠ .gone) (other : Fin workers) :
    Function.update s.place worker place other ≠ .gone := by
  by_cases heq : other = worker
  · rw [heq, Function.update_self]
    exact hplace
  · rw [Function.update_of_ne heq]
    exact h other

/-- A step leaves a worker behind exactly when its request does not rejoin, or when its
{lit}`PUT` finds no room. -/
theorem keepsWorkers_iff {s t : Pool cap workers} (h : ∀ worker, s.place worker ≠ .gone)
    {event : PoolEvent workers} (hstep : PoolMoves hashFunction s event t) :
    KeepsWorkers s event ↔ ∀ worker, t.place worker ≠ .gone := by
  cases hstep with
  | accept stream => exact iff_of_true trivial h
  | dequeue hplace hrequests => exact iff_of_true trivial (present_update h (by simp))
  | @call worker stale stream request protocol hplace hrequest hmove =>
      refine iff_of_true ?_ (present_update h (by simp))
      intro stream' hplace'
      cases hplace.symm.trans hplace'
      obtain ⟨-, -, hrejoins⟩ | ⟨hnone, -⟩ := receive_cases hashFunction s.cache stale stream
      · exact hrejoins
      · rw [hrequest] at hnone
        cases hnone
  | @refuse worker stale stream outcome hplace hnone hturn =>
      have hkeeps : KeepsWorkers s (.receive worker stale) ↔ Rejoins stale stream := by
        constructor
        · intro hkeeps
          exact hkeeps stream hplace
        · intro hrejoins stream' hplace'
          cases hplace.symm.trans hplace'
          exact hrejoins
      obtain ⟨_, hsome, _⟩ | ⟨_, outcome', hturn', hiff⟩ :=
        receive_cases hashFunction s.cache stale stream
      · rw [hnone] at hsome
        cases hsome
      cases hturn.symm.trans hturn'
      rw [hkeeps, ← hiff]
      cases hreturned : outcome.returned with
      | true =>
          refine iff_of_false (by simp) fun hall => hall worker ?_
          exact Function.update_self ..
      | false => exact iff_of_true rfl (present_update h (by simp))
  | proceed hplace heffect hmove =>
      refine iff_of_true ?_ h
      intro heffect'
      rw [heffect] at heffect'
      cases heffect'
  | @effect worker m request protocol outcome hplace heffect hmove hperform =>
      refine iff_of_true ?_ (present_update h (by simp))
      intro _ request' hplace'
      cases hplace.symm.trans hplace'
      obtain ⟨hroom, -⟩ | ⟨-, herror⟩ := perform_cases hashFunction s.idle request
      · exact hroom
      · rw [hperform] at herror
        cases herror
  | @crash worker m request protocol hplace heffect hmove hperform =>
      refine iff_of_false ?_ fun hall => hall worker rfl
      intro hkeeps
      obtain ⟨-, _, hok⟩ | ⟨hroom, -⟩ := perform_cases hashFunction s.idle request
      · rw [hperform] at hok
        cases hok
      · exact hroom (hkeeps heffect request hplace)
  | unlock hplace hmove =>
      refine iff_of_true ?_ h
      intro heffect
      cases heffect
  | answer hplace houtside => exact iff_of_true trivial (present_update h (by simp))

/-! ## The pool and the protocol -/

/-- The places of a reader and of a writer whose call has yet to do its work. -/
def InCall (operation : ReaderWriter.Operation) : Pc → Prop
  | .readerSpin | .readerReady | .reading => operation = .get
  | .writerLock | .writerSpin | .writerReady | .writerSection => operation ≠ .get
  | .outside | .writerUnlock => False

/-- Where a worker is in the loop, and where in the protocol. -/
def Agrees (pc : Pc) : Place → Prop
  | .waiting | .serving _ => pc = .outside
  | .calling request => InCall request.operation pc
  | .answering _ => pc = .outside ∨ pc = .writerUnlock
  | .gone => False

/-- No worker is gone, and each is in the protocol where its call is. -/
structure Staffed (s : Pool cap workers) : Prop where
  counted : Counted s.protocol
  locked : WriteLocked s.protocol
  agrees : ∀ worker, Agrees (s.protocol.pc worker) (s.place worker)

omit [NeZero cap] in
theorem Staffed.present {s : Pool cap workers} (h : Staffed s) (worker : Fin workers) :
    s.place worker ≠ .gone := by
  intro hgone
  have hagrees := h.agrees worker
  rw [hgone] at hagrees
  exact hagrees

omit [NeZero cap] in
/-- A worker moves on in the loop. -/
theorem Staffed.goOn {s t : Pool cap workers} (h : Staffed s) {worker : Fin workers}
    (hprotocol : t.protocol = s.protocol) {place : Place}
    (hplace : t.place = Function.update s.place worker place)
    (hagrees : Agrees (s.protocol.pc worker) place) : Staffed t where
  counted := hprotocol ▸ h.counted
  locked := hprotocol ▸ h.locked
  agrees other := by
    rw [hprotocol, hplace]
    by_cases heq : other = worker
    · rw [heq, Function.update_self]
      exact hagrees
    · rw [Function.update_of_ne heq]
      exact h.agrees other

omit [NeZero cap] in
/-- A worker makes a step of the protocol. -/
theorem Staffed.move {s t : Pool cap workers} (h : Staffed s) {worker : Fin workers} {m : Move}
    (hmove : ReaderWriter.move s.protocol worker m = some t.protocol)
    (hguard : ReaderWriter.NoLateReader s.protocol (worker, m))
    {place : Place} (hplace : t.place worker = place)
    (hagrees : Pc.Step (s.protocol.pc worker) m (t.protocol.pc worker) →
      Agrees (t.protocol.pc worker) place)
    (hother : ∀ other, other ≠ worker → t.place other = s.place other) : Staffed t where
  counted := h.counted.move hguard hmove
  locked := h.locked.move hmove
  agrees other := by
    obtain ⟨hstep, hsame⟩ := ReaderWriter.move_pc hmove
    by_cases heq : other = worker
    · rw [heq, hplace]
      exact hagrees hstep
    · rw [hsame other heq, hother other heq]
      exact h.agrees other

/-- A call starts on its side of the protocol. -/
theorem InCall.of_call {operation : ReaderWriter.Operation} {pc pc' : Pc}
    (hstep : Pc.Step pc (.call operation) pc') : InCall operation pc' := by
  cases hstep with
  | callGet => rfl
  | callWriter hne => exact hne

/-- A call stays on its side until it has done its work. -/
theorem InCall.step {operation : ReaderWriter.Operation} {pc pc' : Pc} {m : Move}
    (h : InCall operation pc) (hstep : Pc.Step pc m pc') (heffect : takesEffect m = false) :
    InCall operation pc' := by
  cases hstep with
  | callGet => exact h.elim
  | callWriter => exact h.elim
  | unlockWrite => exact h.elim
  | leaveSection => cases heffect
  | deregister => cases heffect
  | _ => exact h

theorem outside_or_writerUnlock {pc pc' : Pc} {m : Move} (hstep : Pc.Step pc m pc')
    (heffect : takesEffect m = true) : pc' = .outside ∨ pc' = .writerUnlock := by
  cases hstep with
  | leaveSection => exact Or.inr rfl
  | deregister => exact Or.inl rfl
  | _ => cases heffect

/-- Safe steps keep the pool staffed. -/
theorem staffed_invariant : (safePool cap workers hashFunction).Invariant Staffed where
  initial := by
    rintro s rfl
    refine ⟨ReaderWriter.counted_invariant.initial rfl, ?_, fun _ => rfl⟩
    intro worker
    exact iff_of_false (by simp [ReaderWriter.State.init])
      (by simp [ReaderWriter.State.init, Pc.holdsWrite])
  step := by
    rintro s event t h ⟨⟨hkeeps, hrace⟩, hstep⟩
    have hpresent := (keepsWorkers_iff h.present hstep).mp hkeeps
    cases hstep with
    | accept stream => exact ⟨h.counted, h.locked, h.agrees⟩
    | @dequeue worker stream rest hplace hrequests =>
        have hagrees := h.agrees worker
        rw [hplace] at hagrees
        exact h.goOn rfl rfl hagrees
    | @call worker stale stream request protocol hplace hrequest hmove =>
        exact h.move hmove (by simp [ReaderWriter.NoLateReader]) (Function.update_self ..)
          InCall.of_call fun other hne => Function.update_of_ne hne _ _
    | @refuse worker stale stream outcome hplace hnone hturn =>
        have hagrees := h.agrees worker
        rw [hplace] at hagrees
        refine h.goOn rfl rfl ?_
        have hback := hpresent worker
        dsimp only at hback
        rw [Function.update_self] at hback
        split_ifs at hback ⊢
        · exact absurd rfl hback
        · exact Or.inl hagrees
    | @proceed worker m request protocol hplace heffect hmove =>
        have hagrees := h.agrees worker
        rw [hplace] at hagrees
        refine h.move hmove hrace.1 hplace ?_ fun _ _ => rfl
        intro hpc
        exact hagrees.step hpc heffect
    | @effect worker m request protocol outcome hplace heffect hmove hperform =>
        refine h.move hmove hrace.1 (Function.update_self ..) ?_
          fun other hne => Function.update_of_ne hne _ _
        intro hpc
        exact outside_or_writerUnlock hpc heffect
    | @crash worker m request protocol hplace heffect hmove hperform =>
        exact absurd rfl (hpresent worker)
    | @unlock worker written protocol hplace hmove =>
        refine h.move hmove hrace.1 hplace ?_ fun _ _ => rfl
        intro hpc
        dsimp only at hpc ⊢
        generalize s.protocol.pc worker = pc at hpc
        generalize protocol.pc worker = pc' at hpc ⊢
        cases hpc
        exact Or.inl rfl
    | @answer worker written hplace houtside => exact h.goOn rfl rfl houtside

/-! ## Every call comes to its end -/

/-- Where a worker is when its call is over and the response is written. -/
def Place.afterCall : Place → Place
  | .calling _ | .answering _ => .waiting
  | place => place

/-- How far a worker is from there, besides the steps of the protocol. -/
def Place.rank : Place → Nat
  | .calling _ => 2
  | .answering _ => 1
  | .waiting | .serving _ | .gone => 0

/-- How much there is to do for one worker. -/
def Pool.workOf (s : Pool cap workers) (worker : Fin workers) : Nat :=
  (s.protocol.pc worker).rank + (s.place worker).rank

/-- How much there is to do. -/
def Pool.work (s : Pool cap workers) : Nat := ∑ worker, s.workOf worker

/-- A {lit}`PUT` is in its section and finds no room. -/
def Stuck (s : Pool cap workers) : Prop :=
  ∃ worker request, s.place worker = .calling request ∧
    s.protocol.pc worker = .writerSection ∧ ¬ FindsRoom s.cache request

/-- The steps of a worker towards the end of its call. -/
structure Advances (s t : Pool cap workers) (worker : Fin workers) : Prop where
  self : t.workOf worker < s.workOf worker
  afterCall : (t.place worker).afterCall = (s.place worker).afterCall
  place_other : ∀ other, other ≠ worker → t.place other = s.place other
  pc_other : ∀ other, other ≠ worker → t.protocol.pc other = s.protocol.pc other

omit [NeZero cap] in
theorem Advances.work_lt {s t : Pool cap workers} {worker : Fin workers}
    (h : Advances s t worker) : t.work < s.work := by
  refine Finset.sum_lt_sum ?_ ⟨worker, Finset.mem_univ worker, h.self⟩
  intro other _
  by_cases heq : other = worker
  · rw [heq]
    exact h.self.le
  · rw [Pool.workOf, Pool.workOf, h.pc_other other heq, h.place_other other heq]

omit [NeZero cap] in
theorem Advances.afterCall_eq {s t : Pool cap workers} {worker : Fin workers}
    (h : Advances s t worker) (other : Fin workers) :
    (t.place other).afterCall = (s.place other).afterCall := by
  by_cases heq : other = worker
  · rw [heq]
    exact h.afterCall
  · rw [h.place_other other heq]

omit [NeZero cap] in
/-- A call that has not done its work is on its way in the protocol. -/
theorem Staffed.calling {s : Pool cap workers} (h : Staffed s) {worker : Fin workers}
    {request : Request} (hplace : s.place worker = .calling request) :
    InCall request.operation (s.protocol.pc worker) := by
  have hagrees := h.agrees worker
  rwa [hplace] at hagrees

omit [NeZero cap] in
/-- A {lit}`PUT` that finds no room stands in its section when it takes effect. -/
theorem Staffed.stuck {s : Pool cap workers} (h : Staffed s) {worker : Fin workers} {m : Move}
    {request : Request} {pc : Pc} (hplace : s.place worker = .calling request)
    (hstep : Pc.Step (s.protocol.pc worker) m pc) (heffect : takesEffect m = true)
    (hroom : ¬ FindsRoom s.cache request) : Stuck s := by
  have hcall := h.calling hplace
  refine ⟨worker, request, hplace, ?_, hroom⟩
  generalize s.protocol.pc worker = place at hcall hstep
  cases hstep with
  | leaveSection => rfl
  | deregister =>
      cases request with
      | put => cases hcall
      | _ => exact absurd trivial hroom
  | _ => cases heffect

/-- A worker with a response to write can go on, whatever the others do. -/
theorem Staffed.answering_advances {s : Pool cap workers} (h : Staffed s) {worker : Fin workers}
    {written : List UInt8} (hplace : s.place worker = .answering written) :
    ∃ event t, (safePool cap workers hashFunction).step s event t ∧ Advances s t worker := by
  have hagrees := h.agrees worker
  rw [hplace] at hagrees
  obtain houtside | hunlock := hagrees
  · refine ⟨.answer worker, _, ⟨⟨trivial, trivial⟩, .answer hplace houtside⟩, ?_, ?_, ?_, ?_⟩
    · simp [Pool.workOf, hplace, Place.rank]
    · simp [hplace, Place.afterCall]
    · exact fun other hne => Function.update_of_ne hne _ _
    · exact fun _ _ => rfl
  · have hmove : ReaderWriter.move s.protocol worker .unlockWrite =
        some { s.protocol.goto worker .outside with writeOwner := none } := if_pos hunlock
    have hkeeps : KeepsWorkers s (.move worker .unlockWrite) := by
      intro heffect
      cases heffect
    have hrace : RaceFree s (.move worker .unlockWrite) :=
      ⟨by simp [ReaderWriter.NoLateReader], by simp⟩
    refine ⟨_, _, ⟨⟨hkeeps, hrace⟩, .unlock hplace hmove⟩, ?_, ?_, ?_, ?_⟩
    · simp [Pool.workOf, ReaderWriter.State.goto, hunlock, Pc.rank]
    · rfl
    · exact fun _ _ => rfl
    · exact fun other hne => Function.update_of_ne hne _ _

/-- A worker in a call can make its step of the protocol when no response is to be written,
unless its {lit}`PUT` finds no room. -/
theorem Staffed.calling_advances {s : Pool cap workers} (h : Staffed s)
    (hnone : ∀ worker written, s.place worker ≠ .answering written) {worker : Fin workers}
    {request : Request} (hplace : s.place worker = .calling request) {m : Move}
    {protocol : ReaderWriter.State (Fin workers)}
    (hmove : ReaderWriter.move s.protocol worker m = some protocol)
    (hguard : ReaderWriter.NoLateReader s.protocol (worker, m))
    (hrank : (protocol.pc worker).rank < (s.protocol.pc worker).rank) :
    Stuck s ∨
      ∃ event t, (safePool cap workers hashFunction).step s event t ∧ Advances s t worker := by
  obtain ⟨hstep, hsame⟩ := ReaderWriter.move_pc hmove
  have hrace : RaceFree s (.move worker m) :=
    ⟨hguard, fun _ _ other written hwritten => absurd hwritten (hnone other written)⟩
  cases heffect : takesEffect m with
  | false =>
      have hkeeps : KeepsWorkers s (.move worker m) := by simp [KeepsWorkers, heffect]
      refine Or.inr ⟨_, _, ⟨⟨hkeeps, hrace⟩, .proceed hplace heffect hmove⟩, ?_, ?_, ?_, ?_⟩
      · exact Nat.add_lt_add_right hrank _
      · rfl
      · exact fun _ _ => rfl
      · exact hsame
  | true =>
      obtain ⟨hroom, outcome, hperform⟩ | ⟨hroom, -⟩ := perform_cases hashFunction s.idle request
      · have hkeeps : KeepsWorkers s (.move worker m) := by
          intro _ request' hplace'
          cases hplace.symm.trans hplace'
          exact hroom
        refine Or.inr ⟨_, _, ⟨⟨hkeeps, hrace⟩, .effect hplace heffect hmove hperform⟩,
          ?_, ?_, ?_, ?_⟩
        · simp only [Pool.workOf, Function.update_self, hplace, Place.rank]
          exact Nat.add_lt_add hrank (by decide)
        · simp [hplace, Place.afterCall]
        · exact fun other hne => Function.update_of_ne hne _ _
        · exact hsame
      · exact Or.inl (h.stuck hplace hstep heffect hroom)

/-- While calls are in progress some worker can go on, unless a {lit}`PUT` is in its section
and finds no room. -/
theorem Staffed.progress (hashFunction : List UInt8 → UInt32) {s : Pool cap workers}
    (h : Staffed s) :
    (∀ worker, s.place worker = (s.place worker).afterCall) ∨ Stuck s ∨
      ∃ event t worker, (safePool cap workers hashFunction).step s event t ∧
        Advances s t worker := by
  by_cases hanswering : ∃ worker written, s.place worker = .answering written
  · obtain ⟨worker, written, hplace⟩ := hanswering
    obtain ⟨event, t, hadvances⟩ := h.answering_advances hplace
    exact Or.inr (Or.inr ⟨event, t, worker, hadvances⟩)
  have hnone (worker : Fin workers) (written : List UInt8) :
      s.place worker ≠ .answering written :=
    fun hplace => hanswering ⟨worker, written, hplace⟩
  by_cases hcalling : ∃ worker request, s.place worker = .calling request
  · obtain ⟨worker, request, hplace⟩ := hcalling
    have hbusy : s.protocol.pc worker ≠ .outside := by
      intro houtside
      have hcall := h.calling hplace
      rw [houtside] at hcall
      exact hcall
    obtain ⟨other, m, protocol, hmove, hguard, hrank⟩ :=
      ReaderWriter.exists_advance h.counted h.locked hbusy
    -- the worker that can go on is in a call as well
    obtain ⟨request', hplace'⟩ : ∃ request, s.place other = .calling request := by
      have hagrees := h.agrees other
      have hne : s.protocol.pc other ≠ .outside := by
        intro houtside
        rw [houtside] at hrank
        exact absurd hrank (Nat.not_lt_zero _)
      cases hplace' : s.place other with
      | calling request => exact ⟨request, rfl⟩
      | answering written => exact absurd hplace' (hnone other written)
      | gone => exact absurd hplace' (h.present other)
      | _ =>
          rw [hplace'] at hagrees
          exact absurd hagrees hne
    refine Or.inr ?_
    obtain hstuck | ⟨event, t, hadvances⟩ := h.calling_advances hnone hplace' hmove hguard hrank
    · exact Or.inl hstuck
    · exact Or.inr ⟨event, t, other, hadvances⟩
  · refine Or.inl fun worker => ?_
    cases hplace : s.place worker with
    | calling request => exact absurd ⟨worker, request, hplace⟩ hcalling
    | answering written => exact absurd hplace (hnone worker written)
    | _ => rfl

/-- The calls in progress can be brought to their end by safe steps. -/
theorem Staffed.finish {s : Pool cap workers} (h : Staffed s) :
    ∃ labels t, (safePool cap workers hashFunction).Run s labels t ∧
      ((∀ worker, t.place worker = (s.place worker).afterCall) ∨ Stuck t) := by
  induction hwork : s.work using Nat.strong_induction_on generalizing s with
  | _ work ih =>
      obtain hdone | hstuck | ⟨event, t, worker, hstep, hadvances⟩ := h.progress hashFunction
      · exact ⟨[], s, .nil s, Or.inl hdone⟩
      · exact ⟨[], s, .nil s, Or.inr hstuck⟩
      · have hstaffed : Staffed t := staffed_invariant.step h hstep
        obtain ⟨labels, r, hrun, hend⟩ :=
          ih t.work (hwork ▸ hadvances.work_lt) hstaffed rfl
        refine ⟨event :: labels, r, .cons hstep hrun, hend.imp_left ?_⟩
        intro hall worker
        rw [hall worker, hadvances.afterCall_eq worker]

/-- A worker that has taken a connection can read its request. -/
theorem Staffed.exists_receive {s : Pool cap workers} (h : Staffed s) {worker : Fin workers}
    {stream : List UInt8} (hplace : s.place worker = .serving stream) (stale : RequestHeader) :
    ∃ t, PoolMoves hashFunction s (.receive worker stale) t := by
  obtain ⟨request, hrequest, -⟩ | ⟨hnone, outcome, hturn, -⟩ :=
    receive_cases hashFunction s.cache stale stream
  · have houtside : s.protocol.pc worker = .outside := by
      have hagrees := h.agrees worker
      rwa [hplace] at hagrees
    have hmove : ∃ protocol, ReaderWriter.move s.protocol worker (.call request.operation) =
        some protocol := by
      cases request <;> exact ⟨_, if_pos houtside⟩
    obtain ⟨protocol, hmove⟩ := hmove
    exact ⟨_, .call hplace hrequest hmove⟩
  · exact ⟨_, .refuse hplace hnone hturn⟩

/-- As long as the connections and the order of the steps are safe, all workers are in the loop.
A worker that has taken a connection can read its request, and a step keeps all workers exactly
when it is safe for them.  The calls in progress can be brought to their end, with the workers
back in {lit}`dequeue`, unless a {lit}`PUT` has come to find no room. -/
theorem pool_full {s : Pool cap workers} (h : (safePool cap workers hashFunction).Reachable s) :
    inLoop s = workers ∧
      (∀ event t, PoolMoves hashFunction s event t → (KeepsWorkers s event ↔ inLoop t = workers)) ∧
      (∀ worker stream stale, s.place worker = .serving stream →
        ∃ t, PoolMoves hashFunction s (.receive worker stale) t) ∧
      ∃ labels t, (safePool cap workers hashFunction).Run s labels t ∧
        ((∀ worker, t.place worker = (s.place worker).afterCall) ∨ Stuck t) := by
  have hstaffed := h.invariant staffed_invariant
  refine ⟨(inLoop_eq_iff s).mpr hstaffed.present, ?_, ?_, hstaffed.finish⟩
  · intro event t hstep
    rw [inLoop_eq_iff]
    exact keepsWorkers_iff hstaffed.present hstep
  · intro worker stream stale hplace
    exact hstaffed.exists_receive hplace stale

/-- A pool of two workers: one has {lit}`write_lock` for its {lit}`PUT` when the other comes with
a {lit}`GET`. -/
theorem pool_full_twoCalls :
    ∃ s : Pool 1 2, s.place 0 = .calling (.put (.ofByte 97) (.ofByte 1)) ∧
      s.place 1 = .calling (.get (.ofByte 97)) ∧ inLoop s = 2 ∧
      ∃ labels t, (safePool 1 2 fun _ => 0).Run s labels t ∧
        ((∀ worker, t.place worker = (s.place worker).afterCall) ∨ Stuck t) := by
  let system := safePool 1 2 fun _ => 0
  have hrejoins {s : Pool 1 2} {worker : Fin 2} {stream : List UInt8}
      (hplace : s.place worker = .serving stream) (h : Rejoins ⟨0, 0, 0⟩ stream) :
      KeepsWorkers s (.receive worker ⟨0, 0, 0⟩) := by
    intro stream' hplace'
    cases hplace.symm.trans hplace'
    exact h
  have haccepted : system.Reachable _ :=
    .step (a := .accept [2, 1, 0, 0, 0, 0, 0, 0, 0, 97])
      (.step (a := .accept [1, 1, 0, 0, 0, 1, 0, 0, 0, 97, 1]) (.initial rfl)
        ⟨⟨trivial, trivial⟩, .accept _⟩)
      ⟨⟨trivial, trivial⟩, .accept _⟩
  have hserving : system.Reachable _ :=
    .step (a := .dequeue 1)
      (.step (a := .dequeue 0) haccepted ⟨⟨trivial, trivial⟩, .dequeue rfl rfl⟩)
      ⟨⟨trivial, trivial⟩, .dequeue rfl rfl⟩
  have hputting : system.Reachable _ :=
    .step (a := .receive 0 ⟨0, 0, 0⟩) hserving
      ⟨⟨hrejoins rfl (by decide), trivial⟩, .call rfl rfl rfl⟩
  have hlocked : system.Reachable _ :=
    .step (a := .move 0 .lockWrite) hputting
      ⟨⟨by simp [KeepsWorkers, takesEffect], by simp [RaceFree, ReaderWriter.NoLateReader]⟩,
        .proceed rfl rfl rfl⟩
  have hcalling : system.Reachable _ :=
    .step (a := .receive 1 ⟨0, 0, 0⟩) hlocked
      ⟨⟨hrejoins rfl (by decide), trivial⟩, .call rfl rfl rfl⟩
  have hfull := pool_full hcalling
  exact ⟨_, rfl, rfl, hfull.1, hfull.2.2.2⟩

/-- A {lit}`PUT` without a key costs the pool its worker. -/
theorem not_pool_full :
    ¬ ∀ (cap : Nat) [NeZero cap] (workers : Nat) (hashFunction : List UInt8 → UInt32)
      (s : Pool cap workers), (poolSystem cap workers hashFunction).Reachable s →
        inLoop s = workers := by
  intro hall
  have hserving : (poolSystem 1 1 fun _ => 0).Reachable _ :=
    .step (a := .dequeue 0)
      (.step (a := .accept [1, 0, 0, 0, 0, 0, 0, 0, 0]) (.initial rfl) (.accept _))
      (.dequeue rfl rfl)
  have hturn : workerThread (fun _ => 0) (createMap 1) ⟨0, 0, 0⟩ [1, 0, 0, 0, 0, 0, 0, 0, 0] =
      .ok (refuse (createMap 1) ⟨1, 0, 0⟩) := rfl
  have hgone : (poolSystem 1 1 fun _ => 0).Reachable _ :=
    .step (a := .receive 0 ⟨0, 0, 0⟩) hserving (.refuse rfl rfl hturn)
  exact absurd (hall 1 1 _ _ hgone) (by decide)

end SystemFundamentals.Cream
