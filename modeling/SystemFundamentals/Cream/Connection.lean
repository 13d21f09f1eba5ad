import SystemFundamentals.Csapp.Rio
import SystemFundamentals.Cream.Worker

/-!
# The worker on a connection

The worker reads its request with {lit}`rio_readn` and writes its response with
{lit}`rio_writen`, on a connection that delivers and accepts bytes in pieces, is interrupted
and may fail.  {lit}`Rio_readn_` and {lit}`Rio_writen_` answer {lit}`EPIPE` with -1, and the
thread returns; with any other error, and with any error while it refuses a request, the
process exits.

Main results:

- Theorem {lit}`workerConnection_eq`: on a connection the worker does what it does on the bytes
  before the first error.
-/

namespace SystemFundamentals.Cream

open Library Stream

/-! ## The wrappers -/

/-- A socket that is read and written. -/
structure Connection where
  input : Csapp.ReadFd
  output : Csapp.WriteFd

/-- Where the thread is behind the connection: in front of {lit}`dequeue`, returned, or ended
with the whole process. -/
inductive Fate
  | dequeues
  | returns
  | exits
deriving DecidableEq

/-- The answer of {lit}`Rio_readn_` and {lit}`Rio_writen_` to an error. -/
def fateOf : Csapp.Errno → Fate
  | .EPIPE => .returns
  | .other _ => .exits

/-- {lit}`Rio_readn_` into a buffer: what the buffer holds then, and the rest of the
connection. -/
def rioReadn_ (fd : Csapp.ReadFd) (buffer : List UInt8) :
    Except Fate (List UInt8 × Csapp.ReadFd) :=
  let taken := Csapp.rioReadn fd buffer.length
  match taken.1.failure with
  | some errno => .error (fateOf errno)
  | none => .ok (taken.1.items ++ buffer.drop taken.1.items.length, taken.2)

variable {cap : Nat} [NeZero cap]

/-- What a turn of the worker loop leaves on a connection. -/
structure Turn (cap : Nat) where
  cache : HashMap cap
  written : List UInt8
  fate : Fate

omit [NeZero cap] in
/-- A refused request is answered with {lit}`Rio_writen`, and {lit}`unix_error` ends the
process. -/
def sendRefusal (output : Csapp.WriteFd) (outcome : Outcome cap) : Turn cap :=
  let sent := (Csapp.rioWriten output outcome.written).1
  ⟨outcome.cache, sent.items, if sent.failure = none then .returns else .exits⟩

omit [NeZero cap] in
/-- The header of eight bytes is sent by one call of {lit}`Rio_writen_`, and the value by
another. -/
def sendResponse (output : Csapp.WriteFd) (outcome : Outcome cap) : Turn cap :=
  let header := Csapp.rioWriten output (outcome.written.take 8)
  match header.1.failure with
  | some errno => ⟨outcome.cache, header.1.items, fateOf errno⟩
  | none =>
      let value := (Csapp.rioWriten header.2 (outcome.written.drop 8)).1
      ⟨outcome.cache, header.1.items ++ value.items, value.failure.elim .dequeues fateOf⟩

/-- One connection in {lit}`worker_thread`. -/
def workerConnection (hashFunction : List UInt8 → UInt32) (cache : HashMap cap)
    (stale : RequestHeader) (connection : Connection) : Except Stop (Turn cap) :=
  match rioReadn_ connection.input stale.toBytes with
  | .error fate => .ok ⟨cache, [], fate⟩
  | .ok (bytes, fd) =>
      let header := RequestHeader.ofBytes bytes
      if Oversized header then .ok ⟨cache, [], .returns⟩
      else
        match rioReadn_ fd (List.replicate header.keySize.toNat 0) with
        | .error fate => .ok ⟨cache, [], fate⟩
        | .ok (key, fd) =>
            match rioReadn_ fd (List.replicate header.valueSize.toNat 0) with
            | .error fate => .ok ⟨cache, [], fate⟩
            | .ok (val, _) =>
                (serve hashFunction cache header key val).map fun outcome =>
                  if outcome.returned then sendRefusal connection.output outcome
                  else sendResponse connection.output outcome

/-! ## The bytes before the first error -/

/-- How many bytes the worker asks for. -/
def requested (stale : RequestHeader) (stream : List UInt8) : Nat :=
  let header := receivedHeader stale stream
  9 + if Oversized header then 0 else header.keySize.toNat + header.valueSize.toNat

/-- Where the thread is behind a response that an error may have ended. -/
def fateAfter (returned : Bool) (failure : Option Csapp.Errno) : Fate :=
  if returned then (if failure = none then .returns else .exits)
  else failure.elim .dequeues fateOf

/-- The response as the room for it allows. -/
def deliver (room : Budget Csapp.Errno) (outcome : Outcome cap) : Turn cap :=
  let spent := (room.spend outcome.written.length).1
  ⟨outcome.cache, outcome.written.take spent.1, fateAfter outcome.returned spent.2⟩

omit [NeZero cap] in
theorem sendRefusal_eq (output : Csapp.WriteFd) {outcome : Outcome cap}
    (h : outcome.returned = true) :
    sendRefusal output outcome = deliver (budget output) outcome := by
  simp only [sendRefusal, deliver, (Csapp.rioWriten_eq output outcome.written).1, fateAfter, h,
    if_true]

omit [NeZero cap] in
theorem sendResponse_eq (output : Csapp.WriteFd) {outcome : Outcome cap}
    (h : outcome.returned = false) :
    sendResponse output outcome = deliver (budget output) outcome := by
  rcases outcome with ⟨cache, written, returned⟩
  obtain rfl : returned = false := h
  obtain ⟨header, value, rfl, hheader, hvalue⟩ : ∃ header value, written = header ++ value ∧
      written.take 8 = header ∧ written.drop 8 = value :=
    ⟨_, _, (List.take_append_drop 8 written).symm, rfl, rfl⟩
  obtain ⟨hsent, hrest⟩ := Csapp.rioWriten_eq output header
  simp only [sendResponse, deliver, hheader, hvalue, hsent, List.length_append, fateAfter,
    Bool.false_eq_true, if_false]
  cases hfirst : ((budget output).spend header.length).1.2 with
  | some errno =>
      have hcount := (budget output).spend_le header.length
      rw [Budget.spend_of_failed hfirst (Nat.le_add_right ..), hfirst,
        List.take_append_of_le_length hcount]
      rfl
  | none =>
      obtain ⟨hcount, hmore⟩ := Budget.spend_of_done hfirst
      have hsecond := (Csapp.rioWriten_eq (Csapp.rioWriten output header).2 value).1
      rw [hrest] at hsecond
      rw [hmore, hsecond, hcount, List.take_length, List.take_length_add_append]

/-! ## Reading the request -/

/-- A read that meets an error ends the turn. -/
theorem readn_of_errorBefore {fd : Csapp.ReadFd} {buffer : List UInt8} {errno : Csapp.Errno}
    (h : (source fd).errorBefore buffer.length = some errno) :
    rioReadn_ fd buffer = .error (fateOf errno) := by
  have hread : (Csapp.rioReadn fd buffer.length).1 = ⟨(source fd).current, some errno⟩ := by
    rw [← Source.take_of_errorBefore h, ← Csapp.rioReadn_eq]
  simp only [rioReadn_, hread]

/-- A read that meets none is the read of the bytes there are. -/
theorem readn_of_sound {fd : Csapp.ReadFd} {buffer : List UInt8}
    (h : (source fd).errorBefore buffer.length = none) :
    ∃ fd', rioReadn_ fd buffer = .ok ((rioReadn buffer (source fd).current).1, fd') ∧
      source fd' = ⟨(source fd).current.drop buffer.length, (source fd).later⟩ := by
  have htake := Source.take_of_sound h
  rw [← Csapp.rioReadn_eq] at htake
  have hread : (Csapp.rioReadn fd buffer.length).1 =
      ⟨(source fd).current.take buffer.length, none⟩ := congrArg Prod.fst htake
  refine ⟨_, ?_, congrArg Prod.snd htake⟩
  have hdrop : buffer.drop ((source fd).current.take buffer.length).length =
      buffer.drop (source fd).current.length := by
    rw [List.length_take]
    rcases Nat.le_total buffer.length (source fd).current.length with hle | hle
    · rw [Nat.min_eq_left hle, List.drop_length, List.drop_eq_nil_of_le hle]
    · rw [Nat.min_eq_right hle]
  simp only [rioReadn_, hread, rioReadn, hdrop]

/-- A connection that carries {lit}`stream` up to an error and has {lit}`room` for a response:
the error may be in the way of the request, and otherwise the worker does what it does on the
bytes. -/
def workerStream (hashFunction : List UInt8 → UInt32) (cache : HashMap cap)
    (stale : RequestHeader) (stream : Source UInt8 Csapp.Errno) (room : Budget Csapp.Errno) :
    Except Stop (Turn cap) :=
  match stream.errorBefore (requested stale stream.current) with
  | some errno => .ok ⟨cache, [], fateOf errno⟩
  | none => (workerThread hashFunction cache stale stream.current).map (deliver room)

/-- The pieces in which a connection delivers the request and accepts the response, and the
signals that interrupt the calls, make no difference to the worker. -/
theorem workerConnection_eq (hashFunction : List UInt8 → UInt32) (cache : HashMap cap)
    (stale : RequestHeader) (connection : Connection) :
    workerConnection hashFunction cache stale connection =
      workerStream hashFunction cache stale (source connection.input)
        (budget connection.output) := by
  rcases connection with ⟨input, output⟩
  have hbytes : stale.toBytes.length = 9 := stale.length_toBytes
  unfold workerConnection workerStream requested
  cases hfirst : (source input).errorBefore 9 with
  | some errno =>
      rw [readn_of_errorBefore (hbytes.symm ▸ hfirst),
        Source.errorBefore_mono hfirst (Nat.le_add_right ..)]
  | none =>
      obtain ⟨fd, hread, hfd⟩ := readn_of_sound (hbytes.symm ▸ hfirst)
      rw [hbytes] at hfd
      rw [hread]
      simp only [workerThread, ← receivedHeader.eq_def]
      generalize hheader : receivedHeader stale (source input).current = header
      by_cases hsize : Oversized header
      · simp only [if_pos hsize, Nat.add_zero, hfirst]
        simp [Except.map, deliver, fateAfter]
      · simp only [if_neg hsize, ← Nat.add_assoc]
        have hkey := Source.errorBefore_add hfirst header.keySize.toNat
        rw [← hfd] at hkey
        cases hsecond : (source input).errorBefore (9 + header.keySize.toNat) with
        | some errno =>
            rw [readn_of_errorBefore (by rw [List.length_replicate, hkey, hsecond]),
              Source.errorBefore_mono hsecond (Nat.le_add_right ..)]
        | none =>
            have hsound : (source fd).errorBefore
                (List.replicate header.keySize.toNat (0 : UInt8)).length = none := by
              rw [List.length_replicate, hkey, hsecond]
            obtain ⟨fd', hread', hfd'⟩ := readn_of_sound hsound
            rw [List.length_replicate, hfd, List.drop_drop] at hfd'
            have hval := Source.errorBefore_add hsecond header.valueSize.toNat
            rw [← hfd'] at hval
            rw [hread', hfd]
            simp only
            cases hthird : (source input).errorBefore
                (9 + header.keySize.toNat + header.valueSize.toNat) with
            | some errno =>
                rw [readn_of_errorBefore (by rw [List.length_replicate, hval, hthird])]
            | none =>
                have hsound' : (source fd').errorBefore
                    (List.replicate header.valueSize.toNat (0 : UInt8)).length = none := by
                  rw [List.length_replicate, hval, hthird]
                obtain ⟨fd'', hread'', -⟩ := readn_of_sound hsound'
                rw [hread'', hfd']
                show Except.map _ (serve hashFunction cache header _ _) =
                  Except.map _ (serve hashFunction cache header _ _)
                congr 1
                funext outcome
                cases hreturned : outcome.returned with
                | true => simp [sendRefusal_eq output hreturned]
                | false => simp [sendResponse_eq output hreturned]

/-- A {lit}`GET` of an absent key that arrives in two pieces; the client goes away after five bytes
of the response. -/
theorem workerConnection_eq_pieces :
    workerConnection (fun _ => 0) (createMap 1) ⟨0, 0, 0⟩
        ⟨[.data 2 [1, 0, 0], .interrupt, .data 0 [0, 0, 0, 0, 97]], [.room 4, .failure .EPIPE]⟩ =
      .ok ⟨createMap 1, [148, 1, 0, 0, 0], .returns⟩ := by
  rw [workerConnection_eq]
  rfl

end SystemFundamentals.Cream
