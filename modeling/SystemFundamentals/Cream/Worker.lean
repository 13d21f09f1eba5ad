import SystemFundamentals.Library.LittleEndian
import SystemFundamentals.Cream.Probe

/-!
# The worker thread and truncated requests

One turn of the loop of {lit}`worker_thread` in {lit}`hw5/src/cream.c`: read a
packed request header, a key and a value from the connection, perform the call
on the cache and write a response.  The connection is the list of bytes that
arrive before the end of file; no call fails at the socket level.

{lit}`rio_readn` returns a short count at the end of file and the worker tests
only for a negative one, so a truncated request is served from whatever the
buffers held: the previous contents of the header, and zeros for the key and
the value.  The key buffer has no byte more than {lit}`key_size`; as in
{lit}`HashMap`, a zero byte is taken to lie behind it, where {lit}`strcmp` may
read.

Main results:

- Theorem {lit}`RequestHeader.ofBytes_toBytes`: the packed header layout loses
  nothing.
- Theorem {lit}`truncated_leavesCache_iff`: exactly which truncated requests
  leave the cache as it was.
-/

namespace SystemFundamentals.Cream

open Library

/-! ## Packed headers -/

/-- {lit}`request_header_t`. -/
structure RequestHeader where
  requestCode : UInt8
  keySize : UInt32
  valueSize : UInt32
deriving DecidableEq

/-- The nine bytes of a packed {lit}`request_header_t` on a little-endian
machine. -/
def RequestHeader.toBytes (header : RequestHeader) : List UInt8 :=
  header.requestCode :: (LittleEndian.encode 4 header.keySize.toNat ++
    LittleEndian.encode 4 header.valueSize.toNat)

/-- The header that nine bytes of memory hold. -/
def RequestHeader.ofBytes (bytes : List UInt8) : RequestHeader where
  requestCode := bytes.headD 0
  keySize := UInt32.ofNat (LittleEndian.decode ((bytes.drop 1).take 4))
  valueSize := UInt32.ofNat (LittleEndian.decode ((bytes.drop 5).take 4))

@[simp] theorem RequestHeader.length_toBytes (header : RequestHeader) :
    header.toBytes.length = 9 := by
  simp [toBytes]

/-- The packed layout loses nothing. -/
theorem RequestHeader.ofBytes_toBytes (header : RequestHeader) :
    ofBytes header.toBytes = header := by
  have hword (word : UInt32) : UInt32.ofNat
      (LittleEndian.decode (LittleEndian.encode 4 word.toNat)) = word := by
    rw [LittleEndian.decode_encode (by simpa using word.toNat_lt), UInt32.ofNat_toNat]
  rcases header with ⟨code, keySize, valueSize⟩
  simp only [ofBytes, toBytes, List.headD_cons, List.drop_succ_cons, List.drop_zero]
  rw [List.take_left' (by simp), List.drop_left' (by simp),
    List.take_of_length_le (by simp), hword, hword]

/-- {lit}`response_header_t`. -/
structure ResponseHeader where
  responseCode : UInt32
  valueSize : UInt32
deriving DecidableEq

/-- The eight bytes of a packed {lit}`response_header_t`. -/
def ResponseHeader.toBytes (header : ResponseHeader) : List UInt8 :=
  LittleEndian.encode 4 header.responseCode.toNat ++
    LittleEndian.encode 4 header.valueSize.toNat

/-! ## Constants of the protocol -/

namespace RequestCode

def PUT : UInt8 := 0x01
def GET : UInt8 := 0x02
def EVICT : UInt8 := 0x04
def CLEAR : UInt8 := 0x08

end RequestCode

namespace ResponseCode

def OK : UInt32 := 200
def UNSUPPORTED : UInt32 := 220
def BAD_REQUEST : UInt32 := 400
def NOT_FOUND : UInt32 := 404

end ResponseCode

def minKeySize : UInt32 := 1
def maxKeySize : UInt32 := 2048
def minValueSize : UInt32 := 1
def maxValueSize : UInt32 := 4096

/-! ## Reading a request -/

/-- {lit}`rio_readn` into a buffer: the bytes that arrived over what the buffer
held, and the rest of the stream. -/
def rioReadn (buffer stream : List UInt8) : List UInt8 × List UInt8 :=
  (stream.take buffer.length ++ buffer.drop stream.length, stream.drop buffer.length)

/-- {lit}`req_header` after the first read; {lit}`stale` is what the variable
held before. -/
def receivedHeader (stale : RequestHeader) (stream : List UInt8) : RequestHeader :=
  .ofBytes (rioReadn stale.toBytes stream).1

/-- The calloc'd key buffer after the second read. -/
def receivedKey (header : RequestHeader) (stream : List UInt8) : List UInt8 :=
  (rioReadn (List.replicate header.keySize.toNat 0) (stream.drop 9)).1

/-- The calloc'd value buffer after the third read. -/
def receivedVal (header : RequestHeader) (stream : List UInt8) : List UInt8 :=
  (rioReadn (List.replicate header.valueSize.toNat 0)
    (stream.drop (9 + header.keySize.toNat))).1

/-- {lit}`MAP_KEY(base, len)` or {lit}`MAP_VAL(base, len)` of a filled buffer. -/
def toBuffer (bytes : List UInt8) : Option Buffer :=
  if h : bytes ≠ [] then some ⟨bytes, h⟩ else none

/-! ## Serving a request -/

/-- What one turn of the worker loop leaves behind: the cache, the bytes
written to the connection, and whether the thread returned NULL. -/
structure Outcome (cap : Nat) where
  cache : HashMap cap
  written : List UInt8
  returned : Bool

variable {cap : Nat} [NeZero cap]

omit [NeZero cap] in
/-- A request with a size below its minimum is answered with the first bytes of
the request header, and the thread returns. -/
def refuse (cache : HashMap cap) (header : RequestHeader) : Outcome cap :=
  ⟨cache, header.toBytes.take 8, true⟩

/-- The end of the loop body: the response header, then the value if
{lit}`res_header.value_size` is positive. -/
def respond (cache : HashMap cap) (header : ResponseHeader) (value : MapVal) :
    Outcome cap :=
  ⟨cache, header.toBytes ++
    (if 0 < header.valueSize then value.elim [] Buffer.bytes else []), false⟩

/-- The response to a {lit}`GET`. -/
def getHeader (value : MapVal) : ResponseHeader :=
  match value with
  | some val => ⟨ResponseCode.OK, UInt32.ofNat val.bytes.length⟩
  | none => ⟨ResponseCode.NOT_FOUND, 0⟩

/-- The dispatch on {lit}`request_code` (lines 117 to 158). -/
def serve (hashFunction : List UInt8 → UInt32) (cache : HashMap cap)
    (header : RequestHeader) (key val : List UInt8) : Except Stop (Outcome cap) :=
  if header.requestCode = RequestCode.PUT then
    if header.keySize < minKeySize ∨ header.valueSize < minValueSize then
      .ok (refuse cache header)
    else
      (put hashFunction cache (toBuffer key) (toBuffer val) true).map fun reply =>
        respond reply.self
          ⟨if reply.ret then ResponseCode.OK else ResponseCode.BAD_REQUEST, 0⟩ none
  else if header.requestCode = RequestCode.GET then
    if header.keySize < minKeySize then .ok (refuse cache header)
    else
      (get hashFunction cache (toBuffer key)).map fun reply =>
        respond reply.self (getHeader reply.ret) reply.ret
  else if header.requestCode = RequestCode.EVICT then
    if header.keySize < minKeySize then .ok (refuse cache header)
    else
      (delete hashFunction cache (toBuffer key)).map fun reply =>
        respond reply.self ⟨ResponseCode.OK, 0⟩ none
  else if header.requestCode = RequestCode.CLEAR then
    (clearMap cache).map fun reply => respond reply.self ⟨ResponseCode.OK, 0⟩ none
  else .ok (respond cache ⟨ResponseCode.UNSUPPORTED, 0⟩ none)

/-- The size test before any buffer is allocated. -/
def Oversized (header : RequestHeader) : Prop :=
  maxKeySize < header.keySize ∨ maxValueSize < header.valueSize

instance (header : RequestHeader) : Decidable (Oversized header) :=
  inferInstanceAs (Decidable (_ ∨ _))

/-- One connection in {lit}`worker_thread`. -/
def workerThread (hashFunction : List UInt8 → UInt32) (cache : HashMap cap)
    (stale : RequestHeader) (stream : List UInt8) : Except Stop (Outcome cap) :=
  let header := receivedHeader stale stream
  if Oversized header then .ok ⟨cache, [], true⟩
  else
    serve hashFunction cache header (receivedKey header stream) (receivedVal header stream)

/-! ## Truncated requests -/

/-- The whole request arrived: the header, and as many key and value bytes as it
announces. -/
def Complete (stream : List UInt8) : Prop :=
  9 ≤ stream.length ∧
    9 + (RequestHeader.ofBytes stream).keySize.toNat +
      (RequestHeader.ofBytes stream).valueSize.toNat ≤ stream.length

instance (stream : List UInt8) : Decidable (Complete stream) :=
  inferInstanceAs (Decidable (_ ∧ _))

/-- The worker finishes with the connection and the cache is what it was. -/
def LeavesCache (hashFunction : List UInt8 → UInt32) (cache : HashMap cap)
    (stale : RequestHeader) (stream : List UInt8) : Prop :=
  ∃ outcome, workerThread hashFunction cache stale stream = .ok outcome ∧
    outcome.cache = cache

/-- The forced {lit}`put` evicts the home slot in favour of the pair that is
already there. -/
def RewritesHome (hashFunction : List UInt8 → UInt32) (cache : HashMap cap)
    (key val : Option Buffer) : Prop :=
  cache.numReaders = 0 ∧ UInt32.ofNat cap = cache.size ∧
    ∃ k v, key = some k ∧ val = some v ∧
      cache.nodes (getIndex hashFunction k) = ⟨some k, some v, false⟩

omit [NeZero cap] in
/-- The cache is already in the state {lit}`clear_map` leaves. -/
def Cleared (cache : HashMap cap) : Prop :=
  cache.numReaders = 0 ∧ cache.size = 0 ∧ ∀ i, cache.nodes i = .null

/-- The request in the buffers does not change the cache. -/
def Harmless (hashFunction : List UInt8 → UInt32) (cache : HashMap cap)
    (header : RequestHeader) (key val : Option Buffer) : Prop :=
  Oversized header ∨
    if header.requestCode = RequestCode.PUT then
      header.keySize = 0 ∨ header.valueSize = 0 ∨ cache.invalid = true ∨
        RewritesHome hashFunction cache key val
    else if header.requestCode = RequestCode.GET then
      header.keySize = 0 ∨ cache.invalid = true ∨ 0 ≤ cache.numReaders
    else if header.requestCode = RequestCode.EVICT then
      header.keySize = 0 ∨ cache.invalid = true
    else if header.requestCode = RequestCode.CLEAR then
      cache.invalid = true ∨ Cleared cache
    else True

/-! ## Calls that leave the cache as it was -/

/-- A call that returns, with the cache unchanged. -/
def Leaves {α : Type} (cache : HashMap cap) (call : Except Stop (Reply cap α)) : Prop :=
  ∃ reply, call = .ok reply ∧ reply.self = cache

omit [NeZero cap] in
/-- The response does not touch the cache. -/
theorem leaves_map_iff {α : Type} {cache : HashMap cap}
    {call : Except Stop (Reply cap α)} {answer : Reply cap α → Outcome cap}
    (hanswer : ∀ reply, (answer reply).cache = reply.self) :
    (∃ outcome, call.map answer = .ok outcome ∧ outcome.cache = cache) ↔
      Leaves cache call := by
  unfold Leaves
  cases call with
  | error stop => simp [Except.map]
  | ok reply => simp [Except.map, hanswer]

private theorem word_add_one_ne (word : UInt32) : word + 1 ≠ word := by
  intro h
  have hnat := congrArg UInt32.toNat h
  rw [UInt32.toNat_add] at hnat
  have hlt := word.toNat_lt
  have hone : UInt32.toNat 1 = 1 := rfl
  omega

private theorem word_sub_one_ne (word : UInt32) : word - 1 ≠ word := by
  intro h
  apply word_add_one_ne (word - 1)
  rw [UInt32.sub_add_cancel, h]

/-- A forced {lit}`put` counts its pair, unless it replaces the entry it
evicts. -/
theorem put_leaves_iff (hashFunction : List UInt8 → UInt32) (cache : HashMap cap)
    (key val : Buffer) :
    Leaves cache (put hashFunction cache (some key) (some val) true) ↔
      cache.invalid = true ∨
        RewritesHome hashFunction cache (some key) (some val) := by
  unfold Leaves RewritesHome
  cases hvalid : cache.invalid with
  | true => simp [put, hvalid]
  | false =>
      by_cases hspin : 0 < cache.numReaders
      · have hreaders : cache.numReaders ≠ 0 := by omega
        simp [put, hvalid, hspin, hreaders]
      · have hcase := putNode_case hashFunction cache key val true
        have hput : put hashFunction cache (some key) (some val) true =
            (putNode hashFunction cache key val true).map fun stored =>
              ⟨{ stored with size := stored.size + 1, numReaders := 0 }, true, none⟩ := by
          simp only [put, putLocked, hvalid, if_neg hspin, Bool.false_eq_true,
            Bool.true_eq_false, and_false, if_false]
          cases putNode hashFunction cache key val true <;> rfl
        rw [hput]
        generalize putNode hashFunction cache key val true = stored at hcase
        have hnever : ∀ {P : Prop}, ¬ (UInt32.ofNat cap = cache.size ∧ true = true) →
            (false = true ∨ cache.numReaders = 0 ∧ UInt32.ofNat cap = cache.size ∧ P) →
            False := by
          rintro P hnot (h | h)
          · contradiction
          · exact hnot ⟨h.2.1, rfl⟩
        -- every outcome but the eviction adds one to the counter
        cases hcase with
        | replace hfull _ =>
            constructor
            · rintro ⟨reply, hcall, hself⟩
              cases hcall
              have hnodes := congrArg HashMap.nodes hself
              have hreaders := congrArg HashMap.numReaders hself
              exact Or.inr ⟨hreaders.symm, hfull, key, val, rfl, rfl,
                (Function.update_eq_self_iff.mp hnodes).symm⟩
            · rintro (h | ⟨hreaders, _, k, v, hk, hv, hhome⟩)
              · contradiction
              · cases hk
                cases hv
                refine ⟨_, rfl, ?_⟩
                rcases cache with ⟨size, nodes, readers, invalid⟩
                simp only [HashMap.mk.injEq]
                exact ⟨UInt32.sub_add_cancel _ _,
                  Function.update_eq_self_iff.mpr hhome.symm, hreaders.symm, trivial⟩
        | insert hnot =>
            refine iff_of_false ?_ (hnever hnot)
            rintro ⟨reply, hcall, hself⟩
            cases hcall
            exact word_add_one_ne _ (congrArg HashMap.size hself)
        | overwrite hnot =>
            refine iff_of_false ?_ (hnever hnot)
            rintro ⟨reply, hcall, hself⟩
            cases hcall
            exact word_add_one_ne _ (congrArg HashMap.size hself)
        | reuse hnot =>
            refine iff_of_false ?_ (hnever hnot)
            rintro ⟨reply, hcall, hself⟩
            cases hcall
            exact word_add_one_ne _ (congrArg HashMap.size hself)
        | missing hnot =>
            refine iff_of_false ?_ (hnever hnot)
            rintro ⟨reply, hcall, _⟩
            cases hcall

/-- A {lit}`get` that does not spin changes nothing. -/
theorem get_leaves_iff (hashFunction : List UInt8 → UInt32) (cache : HashMap cap)
    (key : Buffer) :
    Leaves cache (get hashFunction cache (some key)) ↔
      cache.invalid = true ∨ 0 ≤ cache.numReaders := by
  rcases cache with ⟨size, nodes, readers, invalid⟩
  unfold Leaves get
  cases invalid with
  | true => simp
  | false =>
      by_cases hspin : readers < 0
      · simp [hspin]
      · have hsame : readers + 1 - 1 = readers := by omega
        simp [hspin, hsame, Int.not_lt.mp hspin]

/-- A {lit}`delete` on a valid map always counts down. -/
theorem delete_leaves_iff (hashFunction : List UInt8 → UInt32) (cache : HashMap cap)
    (key : Buffer) :
    Leaves cache (delete hashFunction cache (some key)) ↔ cache.invalid = true := by
  unfold Leaves delete
  cases hvalid : cache.invalid with
  | true => simp
  | false =>
      have hsize : ∀ reply : Reply cap MapNode, reply.self.size = cache.size - 1 →
          reply.self ≠ cache := by
        intro reply hreply heq
        rw [heq] at hreply
        exact word_sub_one_ne _ hreply.symm
      simp only [Bool.false_eq_true, if_false, iff_false]
      rintro ⟨reply, hcall, hself⟩
      split_ifs at hcall with hspin
      cases hfind : findSlot cache.nodes (getIndex hashFunction key) key with
      | none =>
          rw [hfind] at hcall
          cases hcall
          exact hsize _ rfl hself
      | some index =>
          rw [hfind] at hcall
          cases hcall
          exact hsize _ rfl hself

omit [NeZero cap] in
/-- {lit}`clear_map` changes every valid map but a cleared one. -/
theorem clearMap_leaves_iff (cache : HashMap cap) :
    Leaves cache (clearMap cache) ↔ cache.invalid = true ∨ Cleared cache := by
  rcases cache with ⟨size, nodes, readers, invalid⟩
  unfold Leaves clearMap Cleared
  cases invalid with
  | true => simp
  | false =>
      by_cases hspin : 0 < readers
      · have hreaders : readers ≠ 0 := by omega
        simp [hspin, hreaders]
      · simp only [Bool.false_eq_true, if_false, if_neg hspin, false_or]
        constructor
        · rintro ⟨reply, hcall, hself⟩
          cases hcall
          cases hself
          exact ⟨rfl, rfl, fun _ => rfl⟩
        · rintro ⟨hreaders, hsize, hnodes⟩
          have hnull : nodes = fun _ => .null := funext hnodes
          exact ⟨_, rfl, by rw [hnull, ← hsize, ← hreaders]⟩

/-! ## The characterization -/

private theorem word_lt_one_iff (word : UInt32) : word < 1 ↔ word = 0 := by
  rw [UInt32.lt_iff_toNat_lt, ← UInt32.toNat_inj]
  have hone : UInt32.toNat 1 = 1 := rfl
  have hzero : UInt32.toNat 0 = 0 := rfl
  omega

/-- A read fills its buffer. -/
theorem length_rioReadn (buffer stream : List UInt8) :
    (rioReadn buffer stream).1.length = buffer.length := by
  simp only [rioReadn, List.length_append, List.length_take, List.length_drop]
  omega

/-- The buffer of a positive size is a key or value of the map. -/
theorem toBuffer_rioReadn {size : UInt32} (hsize : size ≠ 0) (stream : List UInt8) :
    ∃ buffer, toBuffer (rioReadn (List.replicate size.toNat 0) stream).1 = some buffer := by
  have hpos : size.toNat ≠ 0 := fun h => hsize (UInt32.toNat_inj.mp h)
  have hne : (rioReadn (List.replicate size.toNat 0) stream).1 ≠ [] := by
    apply List.ne_nil_of_length_pos
    rw [length_rioReadn, List.length_replicate]
    omega
  exact ⟨⟨_, hne⟩, by rw [toBuffer, dif_pos hne]⟩

/-- Which requests in the buffers leave the cache as it was, request by
request. -/
theorem serve_leaves_iff (hashFunction : List UInt8 → UInt32) (cache : HashMap cap)
    (header : RequestHeader) (stream : List UInt8) (hsize : ¬ Oversized header) :
    (∃ outcome, serve hashFunction cache header (receivedKey header stream)
        (receivedVal header stream) = .ok outcome ∧ outcome.cache = cache) ↔
      Harmless hashFunction cache header (toBuffer (receivedKey header stream))
        (toBuffer (receivedVal header stream)) := by
  unfold serve Harmless
  simp only [hsize, false_or, minKeySize, minValueSize, word_lt_one_iff]
  by_cases hput : header.requestCode = RequestCode.PUT
  · simp only [if_pos hput]
    by_cases hkey : header.keySize = 0
    · simp [hkey, refuse]
    by_cases hval : header.valueSize = 0
    · simp [hval, refuse]
    rcases toBuffer_rioReadn hkey (stream.drop 9) with ⟨key, hkeyBuffer⟩
    rcases toBuffer_rioReadn hval (stream.drop (9 + header.keySize.toNat)) with
      ⟨val, hvalBuffer⟩
    simp only [receivedKey, receivedVal, hkeyBuffer, hvalBuffer, hkey, hval, false_or,
      if_false]
    rw [leaves_map_iff fun _ => rfl]
    exact put_leaves_iff hashFunction cache key val
  simp only [if_neg hput]
  by_cases hget : header.requestCode = RequestCode.GET
  · simp only [if_pos hget]
    by_cases hkey : header.keySize = 0
    · simp [hkey, refuse]
    rcases toBuffer_rioReadn hkey (stream.drop 9) with ⟨key, hkeyBuffer⟩
    simp only [receivedKey, hkeyBuffer, hkey, false_or, if_false]
    rw [leaves_map_iff fun _ => rfl]
    exact get_leaves_iff hashFunction cache key
  simp only [if_neg hget]
  by_cases hevict : header.requestCode = RequestCode.EVICT
  · simp only [if_pos hevict]
    by_cases hkey : header.keySize = 0
    · simp [hkey, refuse]
    rcases toBuffer_rioReadn hkey (stream.drop 9) with ⟨key, hkeyBuffer⟩
    simp only [receivedKey, hkeyBuffer, hkey, false_or, if_false]
    rw [leaves_map_iff fun _ => rfl]
    exact delete_leaves_iff hashFunction cache key
  simp only [if_neg hevict]
  by_cases hclear : header.requestCode = RequestCode.CLEAR
  · simp only [if_pos hclear]
    rw [leaves_map_iff fun _ => rfl]
    exact clearMap_leaves_iff cache
  · simp [hclear, respond]

/-- A truncated request leaves the cache as it was if and only if the request
that the buffers happen to hold is harmless: oversized, of a code or sizes that
reach no call, refused by an invalid map, or without effect on this cache. -/
theorem truncated_leavesCache_iff (hashFunction : List UInt8 → UInt32)
    (cache : HashMap cap) (stale : RequestHeader) (stream : List UInt8)
    (_htruncated : ¬ Complete stream) :
    LeavesCache hashFunction cache stale stream ↔
      Harmless hashFunction cache (receivedHeader stale stream)
        (toBuffer (receivedKey (receivedHeader stale stream) stream))
        (toBuffer (receivedVal (receivedHeader stale stream) stream)) := by
  unfold LeavesCache workerThread
  by_cases hsize : Oversized (receivedHeader stale stream)
  · simp [hsize, Harmless]
  · simp only [if_neg hsize]
    exact serve_leaves_iff hashFunction cache _ stream hsize

/-- The header of a {lit}`GET` without its key. -/
theorem truncated_get_leavesCache :
    LeavesCache (fun _ => 0) (createMap 1) ⟨0, 0, 0⟩ [2, 1, 0, 0, 0, 0, 0, 0, 0] :=
  (truncated_leavesCache_iff (fun _ => 0) (createMap 1) ⟨0, 0, 0⟩
    [2, 1, 0, 0, 0, 0, 0, 0, 0] (by decide)).mpr (Or.inr (Or.inr (Or.inr le_rfl)))

/-- A {lit}`PUT` cut off before its value stores a zero byte under the key. -/
theorem truncated_put_stores :
    ¬ ∀ (cap : Nat) [NeZero cap] (hashFunction : List UInt8 → UInt32) (cache : HashMap cap)
      (stale : RequestHeader) (stream : List UInt8), ¬ Complete stream →
        LeavesCache hashFunction cache stale stream := by
  intro hall
  have hleaves := hall 1 (fun _ => 0) (createMap 1) ⟨0, 0, 0⟩
    [1, 1, 0, 0, 0, 1, 0, 0, 0, 97] (by decide)
  rcases hleaves with ⟨outcome, hrun, hcache⟩
  have hsize : outcome.cache.size = 1 := by
    cases hrun
    rfl
  rw [hcache] at hsize
  exact absurd hsize (by decide)

end SystemFundamentals.Cream
