import SystemFundamentals.Cream.FiniteMap
import SystemFundamentals.Cream.Protocol

/-!
# The cache as its clients see it

The worker stores with {lit}`force` set, so the cache forgets entries: when the counter of the
map is at its capacity, a {lit}`PUT` takes the home slot of its key.  What the clients may rely
on is a map that forgets.  A {lit}`GET` is answered with the value that was stored last under
its key, or with {lit}`NOT_FOUND`, whatever bytes the connections carry.

The map needs a guard for this: an {lit}`EVICT`, and a {lit}`PUT` that meets a full counter,
finds its key in no slot but its home slot.  And it needs the allocator: the worker asks
{lit}`calloc` for the bytes of the key and no more, and {lit}`strcmp` reads on behind them when
two keys of one length agree.  The sizes of buffers behind which a zero byte lies are a parameter,
and the keys have such sizes.

Main results:

- Theorem {lit}`request_of_sent`: the worker reads the requests that the clients send.
- Theorem {lit}`workerThread_eq`: what a turn of the worker does, by the request in its buffers.
- Theorem {lit}`service_simulates`: the guarded cache refines the map that forgets.
- Theorem {lit}`replies_coherent`: the reply to every {lit}`GET` of a run.
-/

namespace SystemFundamentals.Cream

open Library

/-! ## Requests -/

/-- What a connection asks the cache for. -/
inductive Request
  | put (key val : Buffer)
  | get (key : Buffer)
  | evict (key : Buffer)
  | clear
deriving DecidableEq

/-- The request that the buffers of the worker hold, if it reaches a call on the map. -/
def requestOf (header : RequestHeader) (key val : List UInt8) : Option Request :=
  if Oversized header then none
  else if header.requestCode = RequestCode.PUT then
    match toBuffer key, toBuffer val with
    | some key, some val => some (.put key val)
    | _, _ => none
  else if header.requestCode = RequestCode.GET then (toBuffer key).map .get
  else if header.requestCode = RequestCode.EVICT then (toBuffer key).map .evict
  else if header.requestCode = RequestCode.CLEAR then some .clear
  else none

/-- A connection that has been served: the header that was in the variable before, the bytes
that arrived, and the bytes that were written. -/
structure Served where
  stale : RequestHeader
  stream : List UInt8
  written : List UInt8
deriving DecidableEq

/-- The request of a connection, which may be cut off. -/
def Served.request (served : Served) : Option Request :=
  let header := receivedHeader served.stale served.stream
  requestOf header (receivedKey header served.stream) (receivedVal header served.stream)

/-! ## The wire format -/

namespace Request

/-- The key of a request. -/
def key : Request → List UInt8
  | .put key _ | .get key | .evict key => key.bytes
  | .clear => []

/-- The value of a request. -/
def val : Request → List UInt8
  | .put _ val => val.bytes
  | _ => []

/-- The request code. -/
def code : Request → UInt8
  | .put _ _ => RequestCode.PUT
  | .get _ => RequestCode.GET
  | .evict _ => RequestCode.EVICT
  | .clear => RequestCode.CLEAR

/-- The header that announces the key and the value. -/
def header (request : Request) : RequestHeader :=
  ⟨request.code, UInt32.ofNat request.key.length, UInt32.ofNat request.val.length⟩

/-- The bytes that a client sends. -/
def toBytes (request : Request) : List UInt8 :=
  request.header.toBytes ++ (request.key ++ request.val)

/-- The sizes are within the limits. -/
def Fits (request : Request) : Prop :=
  request.key.length ≤ maxKeySize.toNat ∧ request.val.length ≤ maxValueSize.toNat

instance (request : Request) : Decidable request.Fits :=
  inferInstanceAs (Decidable (_ ∧ _))

end Request

/-- A buffer of the announced size takes exactly the bytes that were sent. -/
theorem rioReadn_sent {size : UInt32} {sent : List UInt8} (h : size.toNat = sent.length)
    (rest : List UInt8) :
    (rioReadn (List.replicate size.toNat 0) (sent ++ rest)).1 = sent := by
  rw [rioReadn_full, List.length_replicate, h, List.take_left]
  rw [List.length_replicate, h, List.length_append]
  exact Nat.le_add_right _ _

/-- The worker reads the request that was sent, whatever its variable held and whatever
follows. -/
theorem request_of_sent {request : Request} (hfits : request.Fits) (stale : RequestHeader)
    (rest written : List UInt8) :
    Served.request ⟨stale, request.toBytes ++ rest, written⟩ = some request := by
  obtain ⟨hkeyFits, hvalFits⟩ := hfits
  have hkeySize : request.header.keySize.toNat = request.key.length := by
    rw [Request.header, UInt32.toNat_ofNat']
    exact Nat.mod_eq_of_lt (Nat.lt_of_le_of_lt hkeyFits (by decide))
  have hvalSize : request.header.valueSize.toNat = request.val.length := by
    rw [Request.header, UInt32.toNat_ofNat']
    exact Nat.mod_eq_of_lt (Nat.lt_of_le_of_lt hvalFits (by decide))
  have hsize : ¬ Oversized request.header := by
    rw [Oversized, UInt32.lt_iff_toNat_lt, UInt32.lt_iff_toNat_lt, hkeySize, hvalSize]
    omega
  have hheader : receivedHeader stale (request.toBytes ++ rest) = request.header := by
    have hlength : stale.toBytes.length ≤ (request.toBytes ++ rest).length := by
      rw [Request.toBytes, RequestHeader.length_toBytes, List.length_append, List.length_append,
        RequestHeader.length_toBytes]
      omega
    rw [receivedHeader, rioReadn_full hlength, Request.toBytes, List.append_assoc,
      RequestHeader.length_toBytes, ← request.header.length_toBytes, List.take_left,
      RequestHeader.ofBytes_toBytes]
  have hdrop : (request.toBytes ++ rest).drop 9 = request.key ++ (request.val ++ rest) := by
    rw [Request.toBytes, List.append_assoc, List.append_assoc, ← request.header.length_toBytes,
      List.drop_left]
  have hkey : receivedKey request.header (request.toBytes ++ rest) = request.key := by
    rw [receivedKey, hdrop, rioReadn_sent hkeySize]
  have hval : receivedVal request.header (request.toBytes ++ rest) = request.val := by
    rw [receivedVal, ← List.drop_drop, hdrop, hkeySize, List.drop_left, rioReadn_sent hvalSize]
  have hbuffer (buffer : Buffer) : toBuffer buffer.bytes = some buffer := dif_pos buffer.nonempty
  rw [Served.request]
  simp only [hheader, hkey, hval, requestOf, if_neg hsize]
  cases request with
  | put key val => simp [Request.header, Request.code, Request.key, Request.val, hbuffer]
  | get key =>
      have hcode : RequestCode.GET ≠ RequestCode.PUT := by decide
      simp [Request.header, Request.code, Request.key, hbuffer, hcode]
  | evict key =>
      have hput : RequestCode.EVICT ≠ RequestCode.PUT := by decide
      have hget : RequestCode.EVICT ≠ RequestCode.GET := by decide
      simp [Request.header, Request.code, Request.key, hbuffer, hput, hget]
  | clear => rfl

/-- A {lit}`PUT` with a byte behind it. -/
theorem request_of_sent_put :
    Served.request ⟨⟨0, 0, 0⟩, [1, 1, 0, 0, 0, 1, 0, 0, 0, 97, 1] ++ [7], []⟩ =
      some (.put (.ofByte 97) (.ofByte 1)) :=
  @request_of_sent (.put (.ofByte 97) (.ofByte 1)) (by decide) ⟨0, 0, 0⟩ [7] []

/-! ## The map that forgets -/

/-- What a request does to a finite map. -/
def Request.effect (M : Buffer → Option Buffer) : Request → Buffer → Option Buffer
  | .put key val => Function.update M key (some val)
  | .get _ => M
  | .evict key => Function.update M key none
  | .clear => fun _ => none

/-- What the requests of a history have stored last under every key. -/
def content (history : List Served) : Buffer → Option Buffer :=
  history.foldl (fun M served => served.request.elim M (Request.effect M)) fun _ => none

/-- The reply to a {lit}`GET`. -/
def getReply : Option Buffer → List UInt8
  | some val => ResponseHeader.toBytes ⟨ResponseCode.OK, UInt32.ofNat val.bytes.length⟩ ++ val.bytes
  | none => ResponseHeader.toBytes ⟨ResponseCode.NOT_FOUND, 0⟩

/-- The reply to any other request. -/
def okReply : List UInt8 := ResponseHeader.toBytes ⟨ResponseCode.OK, 0⟩

/-- What may be left of a map when a pair is stored: all of it, or all but one entry if the map
forgets. -/
def Kept (forgets : Prop) (M N : Buffer → Option Buffer) : Prop :=
  N = M ∨ forgets ∧ ∃ key, N = Function.update M key none

/-- A map that may forget an entry whenever it stores one. -/
def forgetfulMap (forgets : Prop) : System (Buffer → Option Buffer) Served where
  initial M := M = fun _ => none
  step M served M' :=
    match served.request with
    | none => M' = M
    | some (.get key) => M' = M ∧ served.written = getReply (M key)
    | some (.put key val) =>
        (∃ N, Kept forgets M N ∧ M' = Function.update N key (some val)) ∧
          served.written = okReply
    | some (.evict key) => M' = Function.update M key none ∧ served.written = okReply
    | some .clear => (M' = fun _ => none) ∧ served.written = okReply

/-! ## The cache -/

variable {cap : Nat} [NeZero cap]

/-- The worker on one connection after the other, with a fresh cache. -/
def cacheSystem (cap : Nat) [NeZero cap] (hashFunction : List UInt8 → UInt32) :
    System (HashMap cap) Served where
  initial cache := cache = createMap cap
  step cache served cache' :=
    ∃ outcome, workerThread hashFunction cache served.stale served.stream = .ok outcome ∧
      outcome.cache = cache' ∧ outcome.written = served.written

/-- The key is in no slot but its home slot. -/
def AtHome (hashFunction : List UInt8 → UInt32) (cache : HashMap cap) (key : Buffer) : Prop :=
  ∀ j, nodeHasKey (cache.nodes j) (some key) = true → j = getIndex hashFunction key

instance (hashFunction : List UInt8 → UInt32) (cache : HashMap cap) (key : Buffer) :
    Decidable (AtHome hashFunction cache key) :=
  inferInstanceAs (Decidable (∀ _, _ → _))

/-- A key that {lit}`strcmp` compares as the model does: it has no zero byte, and its size is one
of those behind which the allocator leaves a zero byte. -/
def Comparable (terminated : Nat → Prop) (key : Buffer) : Prop :=
  NulFree key ∧ terminated key.bytes.length

/-- The requests after which the cache is still a map.  If the counter is at the capacity, a
{lit}`PUT` makes the cache forget. -/
def Settled (terminated : Nat → Prop) (forgets : Prop) (hashFunction : List UInt8 → UInt32)
    (cache : HashMap cap) : Request → Prop
  | .put key _ => Comparable terminated key ∧
      (UInt32.ofNat cap = cache.size → forgets ∧ AtHome hashFunction cache key)
  | .get key => Comparable terminated key
  | .evict key => Comparable terminated key ∧ AtHome hashFunction cache key
  | .clear => True

/-- The cache with settled requests only. -/
def settledSystem (cap : Nat) [NeZero cap] (terminated : Nat → Prop) (forgets : Prop)
    (hashFunction : List UInt8 → UInt32) : System (HashMap cap) Served :=
  (cacheSystem cap hashFunction).guarded fun cache served =>
    ∀ request ∈ served.request, Settled terminated forgets hashFunction cache request

/-! ## A turn of the worker -/

/-- The call on the map for a request, and the response. -/
def perform (hashFunction : List UInt8 → UInt32) (cache : HashMap cap) :
    Request → Except Stop (Outcome cap)
  | .put key val =>
      (put hashFunction cache (some key) (some val) true).map fun reply =>
        respond reply.self
          ⟨if reply.ret then ResponseCode.OK else ResponseCode.BAD_REQUEST, 0⟩ none
  | .get key =>
      (get hashFunction cache (some key)).map fun reply =>
        respond reply.self (getHeader reply.ret) reply.ret
  | .evict key =>
      (delete hashFunction cache (some key)).map fun reply =>
        respond reply.self ⟨ResponseCode.OK, 0⟩ none
  | .clear => (clearMap cache).map fun reply => respond reply.self ⟨ResponseCode.OK, 0⟩ none

/-- A key or value buffer is empty when its size is zero. -/
theorem toBuffer_received {size : UInt32} (stream : List UInt8) :
    (size < 1 ∧ toBuffer (rioReadn (List.replicate size.toNat 0) stream).1 = none) ∨
      ¬ size < 1 ∧ ∃ buffer, buffer.bytes.length = size.toNat ∧
        toBuffer (rioReadn (List.replicate size.toNat 0) stream).1 = some buffer := by
  have hlength := length_rioReadn (List.replicate size.toNat 0) stream
  rw [List.length_replicate] at hlength
  have hmin : size < 1 ↔ size.toNat = 0 := by
    rw [UInt32.lt_iff_toNat_lt]
    exact Nat.lt_one_iff
  by_cases hzero : size.toNat = 0
  · refine Or.inl ⟨hmin.mpr hzero, ?_⟩
    rw [hzero] at hlength
    rw [toBuffer, dif_neg (not_not.mpr (List.eq_nil_of_length_eq_zero (hzero ▸ hlength)))]
  · refine Or.inr ⟨fun h => hzero (hmin.mp h), ?_⟩
    have hne : (rioReadn (List.replicate size.toNat 0) stream).1 ≠ [] := by
      intro hnil
      rw [hnil] at hlength
      exact hzero hlength.symm
    exact ⟨⟨_, hne⟩, hlength, by rw [toBuffer, dif_pos hne]⟩

/-- What a turn of the worker does, by the request in its buffers. -/
theorem workerThread_eq (hashFunction : List UInt8 → UInt32) (cache : HashMap cap)
    (served : Served) :
    match served.request with
    | some request =>
        workerThread hashFunction cache served.stale served.stream =
          perform hashFunction cache request
    | none => ∃ outcome, workerThread hashFunction cache served.stale served.stream = .ok outcome ∧
        outcome.cache = cache := by
  unfold workerThread Served.request requestOf
  generalize receivedHeader served.stale served.stream = header
  simp only
  by_cases hsize : Oversized header
  · rw [if_pos hsize, if_pos hsize]
    exact ⟨_, rfl, rfl⟩
  rw [if_neg hsize, if_neg hsize]
  have hkey := @toBuffer_received header.keySize (served.stream.drop 9)
  have hval := @toBuffer_received header.valueSize
    (served.stream.drop (9 + header.keySize.toNat))
  rw [← receivedKey] at hkey
  rw [← receivedVal] at hval
  unfold serve
  simp only [minKeySize, minValueSize]
  by_cases hput : header.requestCode = RequestCode.PUT
  · simp only [if_pos hput]
    rcases hkey with ⟨hkeySize, hkey⟩ | ⟨hkeySize, key, -, hkey⟩
    · simp only [hkey, hkeySize, true_or, if_true]
      exact ⟨_, rfl, rfl⟩
    rcases hval with ⟨hvalSize, hval⟩ | ⟨hvalSize, val, -, hval⟩
    · simp only [hkey, hval, hvalSize, or_true, if_true]
      exact ⟨_, rfl, rfl⟩
    simp only [hkey, hval, hkeySize, hvalSize, or_self, if_false]
    rfl
  simp only [if_neg hput]
  by_cases hget : header.requestCode = RequestCode.GET
  · simp only [if_pos hget]
    rcases hkey with ⟨hkeySize, hkey⟩ | ⟨hkeySize, key, -, hkey⟩
    · simp only [hkey, hkeySize, if_true, Option.map_none]
      exact ⟨_, rfl, rfl⟩
    · simp only [hkey, hkeySize, if_false, Option.map_some]
      rfl
  simp only [if_neg hget]
  by_cases hevict : header.requestCode = RequestCode.EVICT
  · simp only [if_pos hevict]
    rcases hkey with ⟨hkeySize, hkey⟩ | ⟨hkeySize, key, -, hkey⟩
    · simp only [hkey, hkeySize, if_true, Option.map_none]
      exact ⟨_, rfl, rfl⟩
    · simp only [hkey, hkeySize, if_false, Option.map_some]
      rfl
  simp only [if_neg hevict]
  by_cases hclear : header.requestCode = RequestCode.CLEAR
  · simp only [if_pos hclear]
    rfl
  · simp only [if_neg hclear]
    exact ⟨_, rfl, rfl⟩

/-- A settled request whose call returns is a step of the cache. -/
theorem settledSystem_step {terminated : Nat → Prop} {forgets : Prop}
    {hashFunction : List UInt8 → UInt32}
    {cache : HashMap cap} {served : Served} {request : Request}
    (hrequest : served.request = some request)
    (hsettled : Settled terminated forgets hashFunction cache request) {outcome : Outcome cap}
    (hperform : perform hashFunction cache request = .ok outcome)
    (hwritten : outcome.written = served.written) :
    (settledSystem cap terminated forgets hashFunction).step cache served outcome.cache := by
  have hworker := workerThread_eq hashFunction cache served
  rw [hrequest] at hworker
  refine ⟨?_, outcome, hworker.trans hperform, rfl, hwritten⟩
  intro other hother
  rw [hrequest] at hother
  exact Option.mem_some_iff.mp hother ▸ hsettled

/-- The value of a {lit}`PUT` is as short as its size says. -/
theorem Served.length_of_put {served : Served} {key val : Buffer}
    (h : served.request = some (.put key val)) : val.bytes.length < 2 ^ 32 := by
  unfold Served.request requestOf at h
  generalize receivedHeader served.stale served.stream = header at h
  simp only at h
  have hval := @toBuffer_received header.valueSize
    (served.stream.drop (9 + header.keySize.toNat))
  rw [← receivedVal] at hval
  split_ifs at h with hsize hput
  · split at h
    · rename_i key' val' hkey' hval'
      cases h
      rcases hval with ⟨-, hnone⟩ | ⟨-, buffer, hlength, hsome⟩
      · rw [hval'] at hnone
        cases hnone
      · rw [hval'] at hsome
        cases hsome
        rw [hlength]
        exact header.valueSize.toNat_lt
    · cases h
  all_goals simp at h

/-! ## The refinement -/

/-- The cache holds a finite map of short values. -/
structure Stores (hashFunction : List UInt8 → UInt32) (cache : HashMap cap)
    (M : Buffer → Option Buffer) : Prop where
  represents : Represents hashFunction cache M
  short : ∀ key val, M key = some val → val.bytes.length < 2 ^ 32

omit [NeZero cap] in
/-- The response to a {lit}`GET` that has found a short value, or none. -/
theorem written_getHeader (cache : HashMap cap) {ret : MapVal}
    (hshort : ∀ val, ret = some val → val.bytes.length < 2 ^ 32) :
    (respond cache (getHeader ret) ret).written = getReply ret := by
  cases ret with
  | none => simp [respond, getHeader, getReply]
  | some val =>
      have hpos : 0 < UInt32.ofNat val.bytes.length := by
        rw [UInt32.lt_iff_toNat_lt, UInt32.toNat_ofNat', Nat.mod_eq_of_lt (hshort val rfl)]
        exact List.length_pos_iff.mpr val.nonempty
      simp [respond, getHeader, getReply, hpos]

omit [NeZero cap] in
theorem written_ok (cache : HashMap cap) :
    (respond cache ⟨ResponseCode.OK, 0⟩ none).written = okReply := by
  simp [respond, okReply]

/-- While the counter is below the capacity, {lit}`force` makes no difference. -/
theorem put_force_eq {hashFunction : List UInt8 → UInt32} {cache : HashMap cap}
    (hidle : Idle cache) (hroom : UInt32.ofNat cap ≠ cache.size) (key val : Buffer) :
    put hashFunction cache (some key) (some val) true =
      put hashFunction cache (some key) (some val) false := by
  rw [put_of_idle hidle, put_of_idle hidle, if_neg fun h => hroom h.1,
    if_neg fun h => hroom h.1]
  simp only [putNode, hroom, false_and, if_false]

/-- Replacing the home slot of a key that is in no other slot drops the entry that was there. -/
theorem Represents.replace {hashFunction : List UInt8 → UInt32} {map : HashMap cap}
    {M : Buffer → Option Buffer} (h : Represents hashFunction map M) {key : Buffer}
    (hkey : NulFree key) (hhome : AtHome hashFunction map key) (val : Buffer) (size : UInt32) :
    ∃ N, Kept True M N ∧ Represents hashFunction
      { map with
        nodes := Function.update map.nodes (getIndex hashFunction key) ⟨some key, some val, false⟩
        size := size, numReaders := 0 }
      (Function.update N key (some val)) := by
  have hpath (nodes : Fin cap → MapNode) (x : Nat)
      (hx : x < Ring.dist (getIndex hashFunction key : Fin cap) (getIndex hashFunction key)) :
      nodeIsEmpty (nodes (Ring.along (getIndex hashFunction key) x)) = false := by
    rw [Ring.dist_self] at hx
    cases hx
  have honly : ∀ j, Holds map.nodes j key → j = getIndex hashFunction key := fun j hj =>
    hhome j ((nodeHasKey_iff_holds h.nulFree hkey).mpr hj)
  by_cases hlive : ∃ other, Holds map.nodes (getIndex hashFunction key) other
  · obtain ⟨other, hother⟩ := hlive
    -- the entry is removed first, and its slot is free then
    have hremoved := @Represents.remove cap _ hashFunction map M h other _ size hother
    refine ⟨Function.update M other none, Or.inr ⟨trivial, other, rfl⟩, ?_⟩
    have hstored := @Represents.store cap _ hashFunction _ _ hremoved key val hkey
      (getIndex hashFunction key) size (hpath _) ?_ ?_
    · simpa only [Function.update_idem] using hstored
    · intro other' hother'
      rcases holds_update_iff.mp hother' with ⟨-, htomb, -⟩ | ⟨hne, -⟩
      · cases htomb
      · exact absurd rfl hne
    · intro j hj
      rcases holds_update_iff.mp hj with ⟨hj, -, -⟩ | ⟨-, hold⟩
      · exact hj
      · exact honly j hold
  · refine ⟨M, Or.inl rfl, h.store hkey (hpath _) ?_ honly⟩
    intro other hother
    exact absurd ⟨other, hother⟩ hlive

/-- A settled {lit}`PUT` that returns stores its pair. -/
theorem Stores.put {hashFunction : List UInt8 → UInt32} {cache : HashMap cap}
    {M : Buffer → Option Buffer} (h : Stores hashFunction cache M) {terminated : Nat → Prop}
    {forgets : Prop} {key val : Buffer} (hval : val.bytes.length < 2 ^ 32)
    (hsettled : Settled terminated forgets hashFunction cache (.put key val))
    {outcome : Outcome cap}
    (hput : perform hashFunction cache (.put key val) = .ok outcome) :
    (∃ N, Kept forgets M N ∧
        Stores hashFunction outcome.cache (Function.update N key (some val))) ∧
      outcome.written = okReply := by
  obtain ⟨⟨hkey, -⟩, hfull⟩ := hsettled
  have hidle := h.represents.idle
  have hshort {N : Buffer → Option Buffer} (hkept : Kept forgets M N) (other found : Buffer)
      (hfound : Function.update N key (some val) other = some found) :
      found.bytes.length < 2 ^ 32 := by
    by_cases hother : other = key
    · rw [hother, Function.update_self] at hfound
      exact Option.some.inj hfound ▸ hval
    · rw [Function.update_of_ne hother] at hfound
      rcases hkept with rfl | ⟨-, dropped, rfl⟩
      · exact h.short other found hfound
      · by_cases hdropped : other = dropped
        · rw [hdropped, Function.update_self] at hfound
          cases hfound
        · rw [Function.update_of_ne hdropped] at hfound
          exact h.short other found hfound
  by_cases hsize : UInt32.ofNat cap = cache.size
  · obtain ⟨hforgets, hhome⟩ := hfull hsize
    obtain ⟨N, hkept, hrep⟩ := h.represents.replace hkey hhome val (cache.size - 1 + 1)
    have hkept' : Kept forgets M N := hkept.imp_right fun hdrop => ⟨hforgets, hdrop.2⟩
    have hcall : Cream.put hashFunction cache (some key) (some val) true =
        .ok ⟨{ cache with
          nodes := Function.update cache.nodes (getIndex hashFunction key)
            ⟨some key, some val, false⟩
          size := cache.size - 1 + 1, numReaders := 0 }, true, none⟩ := by
      rw [put_of_idle hidle, if_neg (by simp), putNode, if_pos ⟨hsize, rfl⟩]
      rfl
    rw [perform, hcall] at hput
    cases hput
    exact ⟨⟨N, hkept', hrep, hshort hkept'⟩, written_ok _⟩
  · rw [perform, put_force_eq hidle hsize] at hput
    cases hcall : Cream.put hashFunction cache (some key) (some val) false with
    | error stop =>
        rw [hcall] at hput
        cases hput
    | ok reply =>
        rw [hcall] at hput
        cases hput
        have hret : reply.ret = true := by
          rw [put_of_idle hidle, if_neg fun h => hsize h.1] at hcall
          cases hnode : putNode hashFunction cache key val false with
          | error stop =>
              rw [hnode] at hcall
              cases hcall
          | ok stored =>
              rw [hnode] at hcall
              cases hcall
              rfl
        rcases h.represents.put hkey hcall with ⟨-, hrep⟩ | ⟨hfalse, -⟩
        · refine ⟨⟨M, Or.inl rfl, hrep, hshort (Or.inl rfl)⟩, ?_⟩
          simp only [hret, if_true]
          exact written_ok _
        · rw [hret] at hfalse
          cases hfalse

/-- Along settled requests the cache refines the map that forgets. -/
theorem service_simulates (terminated : Nat → Prop) (forgets : Prop)
    (hashFunction : List UInt8 → UInt32) :
    (settledSystem cap terminated forgets hashFunction).Simulation (forgetfulMap forgets)
      (Stores hashFunction) where
  initial := by
    rintro cache rfl
    exact ⟨_, rfl, represents_createMap hashFunction, by simp⟩
  step := by
    rintro cache cache' served M h ⟨hguard, outcome, hturn, rfl, hwritten⟩
    have hworker := workerThread_eq hashFunction cache served
    cases hrequest : served.request with
    | none =>
        rw [hrequest] at hworker
        obtain ⟨outcome', hturn', hcache⟩ := hworker
        rw [hturn] at hturn'
        cases hturn'
        refine ⟨M, ?_, hcache.symm ▸ h⟩
        simp [forgetfulMap, hrequest]
    | some request =>
        rw [hrequest] at hworker
        simp only at hworker
        rw [hturn] at hworker
        have hsettled := hguard request hrequest
        cases request with
        | put key val =>
            obtain ⟨⟨N, hkept, hstores⟩, hok⟩ :=
              h.put (served.length_of_put hrequest) hsettled hworker.symm
            refine ⟨Function.update N key (some val), ?_, hstores⟩
            simp only [forgetfulMap, hrequest]
            exact ⟨⟨N, hkept, rfl⟩, hwritten ▸ hok⟩
        | get key =>
            rw [perform, h.represents.get hsettled.1] at hworker
            cases hworker
            refine ⟨M, ?_, h⟩
            simp only [forgetfulMap, hrequest, ← hwritten, true_and]
            exact written_getHeader cache (h.short key)
        | evict key =>
            obtain ⟨⟨hkey, -⟩, hhome⟩ := hsettled
            obtain ⟨reply, hdelete, -, hrep⟩ := h.represents.delete hkey hhome
            rw [perform, hdelete] at hworker
            cases hworker
            refine ⟨Function.update M key none, ?_, hrep, ?_⟩
            · simp only [forgetfulMap, hrequest, ← hwritten, true_and]
              exact written_ok _
            · intro other found hfound
              by_cases hother : other = key
              · rw [hother, Function.update_self] at hfound
                cases hfound
              · rw [Function.update_of_ne hother] at hfound
                exact h.short other found hfound
        | clear =>
            rw [perform, clearMap_of_idle h.represents.idle] at hworker
            cases hworker
            refine ⟨fun _ => none, ?_, represents_createMap hashFunction, by simp⟩
            simp only [forgetfulMap, hrequest, ← hwritten, true_and]
            exact written_ok _

/-! ## Coherence -/

/-- A map that holds what a history has stored, but for what it may have forgotten. -/
def Remembers (forgets : Prop) (M stored : Buffer → Option Buffer) : Prop :=
  ∀ key, M key = stored key ∨ forgets ∧ M key = none

theorem Remembers.update {forgets : Prop} {M stored : Buffer → Option Buffer}
    (h : Remembers forgets M stored) (key : Buffer) (val : Option Buffer) :
    Remembers forgets (Function.update M key val) (Function.update stored key val) := by
  intro other
  by_cases hother : other = key
  · rw [hother, Function.update_self, Function.update_self]
    exact Or.inl rfl
  · rw [Function.update_of_ne hother, Function.update_of_ne hother]
    exact h other

theorem Remembers.kept {forgets : Prop} {M N stored : Buffer → Option Buffer}
    (h : Remembers forgets M stored) (hkept : Kept forgets M N) : Remembers forgets N stored := by
  rcases hkept with rfl | ⟨hforgets, dropped, rfl⟩
  · exact h
  · intro key
    by_cases hkey : key = dropped
    · rw [hkey, Function.update_self]
      exact Or.inr ⟨hforgets, rfl⟩
    · rw [Function.update_of_ne hkey]
      exact h key

/-- A step keeps up with the history. -/
theorem Remembers.step {forgets : Prop} {M M' stored : Buffer → Option Buffer}
    (h : Remembers forgets M stored) {served : Served}
    (hstep : (forgetfulMap forgets).step M served M') :
    Remembers forgets M' (served.request.elim stored (Request.effect stored)) := by
  simp only [forgetfulMap] at hstep
  cases hrequest : served.request with
  | none =>
      rw [hrequest] at hstep
      exact hstep ▸ h
  | some request =>
      rw [hrequest] at hstep
      cases request with
      | put key val =>
          obtain ⟨⟨N, hkept, rfl⟩, -⟩ := hstep
          exact (h.kept hkept).update key (some val)
      | get key => exact hstep.1 ▸ h
      | evict key => exact hstep.1 ▸ h.update key none
      | clear => exact fun key => Or.inl (congrFun hstep.1 key)

/-- The replies of the map that forgets. -/
theorem forgetfulMap_reply {forgets : Prop} {before after : List Served} {served : Served}
    {M M' stored : Buffer → Option Buffer} (h : Remembers forgets M stored)
    (hrun : (forgetfulMap forgets).Run M (before ++ served :: after) M') {key : Buffer}
    (hget : served.request = some (.get key)) :
    served.written = getReply (before.foldl
        (fun M served => served.request.elim M (Request.effect M)) stored key) ∨
      forgets ∧ served.written = getReply none := by
  induction before generalizing M stored with
  | nil =>
      cases hrun with
      | cons hstep _ =>
          simp only [forgetfulMap, hget] at hstep
          rw [List.foldl_nil, hstep.2]
          rcases h key with hkey | ⟨hforgets, hkey⟩
          · exact Or.inl (congrArg getReply hkey)
          · exact Or.inr ⟨hforgets, congrArg getReply hkey⟩
  | cons first before ih =>
      cases hrun with
      | cons hstep hrest => exact ih (h.step hstep) hrest

/-- One connection after the other, and whatever they carry, a {lit}`GET` is answered with the
value that was stored last under its key, or, if the counter has been at the capacity, with
{lit}`NOT_FOUND`. -/
theorem replies_coherent (terminated : Nat → Prop) (forgets : Prop)
    (hashFunction : List UInt8 → UInt32) {before after : List Served} {served : Served}
    (htrace : (settledSystem cap terminated forgets hashFunction).Trace (before ++ served :: after))
    {key : Buffer} (hget : served.request = some (.get key)) :
    served.written = getReply (content before key) ∨
      forgets ∧ served.written = getReply none := by
  obtain ⟨M, M', hinitial, hrun⟩ := (service_simulates terminated forgets hashFunction).trace htrace
  have hfresh : Remembers forgets M fun _ => none := fun key => Or.inl (congrFun hinitial key)
  exact forgetfulMap_reply hfresh hrun hget

/-- An allocator whose blocks have room for 24, 40, 56 and so on bytes leaves a zero byte behind
all other sizes. -/
def hasSlack (size : Nat) : Prop :=
  size < 24 ∨ size % 16 ≠ 8

instance (size : Nat) : Decidable (hasSlack size) :=
  inferInstanceAs (Decidable (_ ∨ _))

/-- The third pair in a cache of two takes the slot of the first one, which is not found then. -/
theorem replies_coherent_evicted :
    let ok : List UInt8 := [200, 0, 0, 0, 0, 0, 0, 0]
    let putA : Served := ⟨⟨0, 0, 0⟩, [1, 1, 0, 0, 0, 1, 0, 0, 0, 97, 1], ok⟩
    let putB : Served := ⟨⟨0, 0, 0⟩, [1, 1, 0, 0, 0, 1, 0, 0, 0, 98, 2], ok⟩
    let putC : Served := ⟨⟨0, 0, 0⟩, [1, 1, 0, 0, 0, 1, 0, 0, 0, 99, 3], ok⟩
    let getA : Served := ⟨⟨0, 0, 0⟩, [2, 1, 0, 0, 0, 0, 0, 0, 0, 97], [148, 1, 0, 0, 0, 0, 0, 0]⟩
    getA.written = getReply (content [putA, putB, putC] (.ofByte 97)) ∨
      True ∧ getA.written = getReply none := by
  intro ok putA putB putC getA
  have hputA : putA.request = some (.put (.ofByte 97) (.ofByte 1)) := by decide
  have hputB : putB.request = some (.put (.ofByte 98) (.ofByte 2)) := by decide
  have hputC : putC.request = some (.put (.ofByte 99) (.ofByte 3)) := by decide
  have hgetA : getA.request = some (.get (.ofByte 97)) := by decide
  have hcomparable (byte : UInt8) (hbyte : NulFree (.ofByte byte)) :
      Comparable hasSlack (.ofByte byte) := ⟨hbyte, Or.inl (by decide : 1 < 24)⟩
  have htrace : (settledSystem 2 hasSlack True fun _ => 0).Trace
      ([putA, putB, putC] ++ getA :: []) :=
    ⟨createMap 2, _, rfl,
      .cons (settledSystem_step hputA ⟨hcomparable 97 (by decide), fun h => absurd h (by decide)⟩
          rfl rfl)
        (.cons (settledSystem_step hputB ⟨hcomparable 98 (by decide),
            fun h => absurd h (by decide)⟩ rfl rfl)
          (.cons (settledSystem_step hputC ⟨hcomparable 99 (by decide),
              fun _ => ⟨trivial, by decide⟩⟩ rfl rfl)
            (.cons (settledSystem_step hgetA (hcomparable 97 (by decide)) rfl rfl)
              (.nil _))))⟩
  exact replies_coherent hasSlack True (fun _ => 0) htrace hgetA

end SystemFundamentals.Cream
